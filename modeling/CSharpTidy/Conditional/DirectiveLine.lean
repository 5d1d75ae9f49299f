import CSharpTidy.Source.Trivia
import CSharpTidy.Text.Blank

/- Directive lines: a hash, spaces or tabs, a lower-case keyword, and an argument up to a
   comment. -/
namespace CSharpTidy

def isSymbolStart (c : Char) : Bool :=
  c.isAlpha || c == '_'

def isSymbolPart (c : Char) : Bool :=
  c.isAlphanum || c == '_'

def isSymbol (name : List Char) : Bool :=
  match name with
  | [] => false
  | c :: rest =>
      isSymbolStart c && rest.all isSymbolPart &&
        name != ['t', 'r', 'u', 'e'] && name != ['f', 'a', 'l', 's', 'e']

namespace DirectiveLine

def split : List Char → Option (List Char × List Char)
  | '#' :: rest =>
      let body := rest.dropWhile fun c => c == ' ' || c == '\t'
      match body.takeWhile Char.isLower with
      | [] => none
      | keyword => some (keyword, body.dropWhile Char.isLower)
  | _ => none

def keyword? (line : List Char) : Option (List Char) :=
  (split line).map Prod.fst

def beforeComment : List Char → List Char
  | '/' :: '/' :: _ => []
  | c :: rest => c :: beforeComment rest
  | [] => []

/-- The argument without a comment and without blanks at its ends; empty for any other line. -/
def argument (line : List Char) : List Char :=
  match split line with
  | some (_, rest) => Text.trim (beforeComment rest)
  | none => []

def kind? (line : List Char) : Option DirectiveKind :=
  (keyword? line).map fun keyword => .ofKeyword (String.ofList keyword)

/-- The kind of a line that starts with a hash; without a keyword it is `other`. -/
def kind (line : List Char) : DirectiveKind :=
  (kind? line).getD .other

end DirectiveLine

end CSharpTidy
