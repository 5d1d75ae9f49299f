import CSharpTidy.Conditional.State
import CSharpTidy.Source.Position

/- Why a source text has no tree, and where. -/
namespace CSharpTidy

inductive Construct where
  | string | rawString | interpolation | character | comment
  deriving DecidableEq, Repr

def Construct.noun : Construct → String
  | .string => "string literal"
  | .rawString => "raw string literal"
  | .interpolation => "interpolated string"
  | .character => "character literal"
  | .comment => "comment"

inductive Expected where
  | closeBrace | closeBracket | semicolon | bodyOrSemicolon | semicolonOrBrace
  deriving DecidableEq, Repr

def Expected.text : Expected → String
  | .closeBrace => "`\x7d`"
  | .closeBracket => "`]`"
  | .semicolon => "`;`"
  | .bodyOrSemicolon => "`\x7b` or `;`"
  | .semicolonOrBrace => "`;` or `\x7d`"

inductive ParseError where
  | unterminated (what : Construct) (position : Position)
  | unexpected (found : String) (position : Position)
  | endOfFile (expected : Expected) (position : Position)
  | directive (cause : DirectiveError) (position : Position)
  deriving DecidableEq, Repr

namespace ParseError

def position : ParseError → Position
  | .unterminated _ p | .unexpected _ p | .endOfFile _ p | .directive _ p => p

def reason : ParseError → String
  | .unterminated what _ => s!"unterminated {what.noun}"
  | .unexpected found _ => s!"unexpected `{found}`"
  | .endOfFile expected _ => s!"unexpected end of file, expected {expected.text}"
  | .directive cause _ => cause.message

def message (e : ParseError) : String :=
  s!"{e.position.line}:{e.position.column}: {e.reason}"

end ParseError

end CSharpTidy
