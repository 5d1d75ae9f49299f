/- Trivia: the text between tokens. A span is the trivia on one side of a token or declaration,
   in source order. -/
namespace CSharpTidy

inductive DirectiveKind where
  | ifTest | elifTest | elseArm | endIf
  | define | undef
  | region | endRegion
  | nullable | pragma | warning | error | line
  | other
  deriving DecidableEq, Repr

namespace DirectiveKind

def ofKeyword (keyword : String) : DirectiveKind :=
  match keyword with
  | "if" => .ifTest
  | "elif" => .elifTest
  | "else" => .elseArm
  | "endif" => .endIf
  | "define" => .define
  | "undef" => .undef
  | "region" => .region
  | "endregion" => .endRegion
  | "nullable" => .nullable
  | "pragma" => .pragma
  | "warning" => .warning
  | "error" => .error
  | "line" => .line
  | _ => .other

def isConditional : DirectiveKind → Bool
  | .ifTest | .elifTest | .elseArm | .endIf => true
  | _ => false

def isRegionMarker : DirectiveKind → Bool
  | .region | .endRegion => true
  | _ => false

/-- Depends on where it stands among declarations, as every directive but a region marker does. -/
def isGuardMarker (kind : DirectiveKind) : Bool :=
  !kind.isRegionMarker

end DirectiveKind

inductive TriviaKind where
  | whitespace
  | endOfLine
  | lineComment
  | docComment
  | blockComment
  | directive (kind : DirectiveKind)
  | disabled
  deriving DecidableEq, Repr

structure Trivia where
  kind : TriviaKind
  text : String
  deriving DecidableEq, Repr

namespace Trivia

def isWhitespace (t : Trivia) : Bool :=
  t.kind == .whitespace

def isEndOfLine (t : Trivia) : Bool :=
  t.kind == .endOfLine

def isBlank (t : Trivia) : Bool :=
  t.isWhitespace || t.isEndOfLine

def isComment (t : Trivia) : Bool :=
  match t.kind with
  | .lineComment | .docComment | .blockComment => true
  | _ => false

def isRegionMarker (t : Trivia) : Bool :=
  match t.kind with
  | .directive kind => kind.isRegionMarker
  | _ => false

def isGuardMarker (t : Trivia) : Bool :=
  match t.kind with
  | .directive kind => kind.isGuardMarker
  | _ => false

/-- Ends a source line: a terminator, or a dead branch, which is made of whole lines. -/
def breaksLine (t : Trivia) : Bool :=
  match t.kind with
  | .endOfLine | .disabled => true
  | _ => false

end Trivia

abbrev Span := List Trivia

namespace Span

def text : Span → String
  | [] => ""
  | t :: rest => t.text ++ text rest

def isBlank (span : Span) : Bool :=
  span.all Trivia.isBlank

def hasGuardMarker (span : Span) : Bool :=
  span.any Trivia.isGuardMarker

def breaksLine (span : Span) : Bool :=
  span.any Trivia.breaksLine

end Span

end CSharpTidy
