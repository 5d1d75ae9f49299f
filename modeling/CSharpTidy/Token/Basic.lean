import CSharpTidy.Source.Position
import CSharpTidy.Source.Trivia

/- Tokens with the trivia around them. Trailing trivia run up to and including the first line
   terminator; what else stands before a token is its leading trivia. -/
namespace CSharpTidy

inductive LexemeKind where
  | word | number | literal | punct
  deriving DecidableEq, Repr

structure Lexeme where
  kind : LexemeKind
  text : String
  deriving DecidableEq, Repr

namespace Lexeme

/-- A word or a punctuation mark of this text; numbers and literals are no keywords. -/
def is (l : Lexeme) (text : String) : Bool :=
  (l.kind == .word || l.kind == .punct) && l.text == text

def isWord (l : Lexeme) : Bool :=
  l.kind == .word

def isPunct (l : Lexeme) : Bool :=
  l.kind == .punct

end Lexeme

structure Token extends Lexeme where
  leading : Span
  trailing : Span
  position : Position
  deriving DecidableEq, Repr

def Token.fullText (t : Token) : String :=
  Span.text t.leading ++ t.text ++ Span.text t.trailing

/-- A whole text: its tokens, and the trivia and the position in front of its end. -/
structure TokenStream where
  tokens : List Token
  tail : Span
  finish : Position
  deriving DecidableEq, Repr

end CSharpTidy
