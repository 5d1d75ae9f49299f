import CSharpTidy.Source.Trivia

/- The tree of declarations. A declaration keeps its exact text and the trivia on both sides of
   it; namespaces, classes and interfaces also keep a block of declarations, all else is text
   that is never looked into. -/
namespace CSharpTidy

inductive Visibility where
  | publicAccess | internalAccess | protectedAccess | privateAccess | unmarked
  deriving DecidableEq, Repr

namespace Visibility

/-- The widest access among modifiers: `protected internal` is internal. -/
def ofModifiers (modifiers : List String) : Visibility :=
  if modifiers.contains "public" then .publicAccess
  else if modifiers.contains "internal" then .internalAccess
  else if modifiers.contains "protected" then .protectedAccess
  else if modifiers.contains "private" then .privateAccess
  else .unmarked

/-- Without a modifier a declaration ranks as private. -/
def rank : Visibility → Nat
  | .publicAccess => 0
  | .internalAccess => 1
  | .protectedAccess => 2
  | .privateAccess | .unmarked => 3

end Visibility

inductive ImportKind where
  | externAlias | globalUsing | plainUsing
  deriving DecidableEq, Repr

inductive ContainerKind where
  | namespaceBody | classBody | interfaceBody
  deriving DecidableEq, Repr

/-- Declarations that keep their place among each other. -/
inductive OtherKind where
  | struct | record | delegate | event | indexer | operator | destructor
  | globalAttribute | statement | unknown
  deriving DecidableEq, Repr

inductive DeclKind where
  | imported (kind : ImportKind)
  | container (kind : ContainerKind)
  | field
  | property
  | constructor
  | method
  | enum
  | other (kind : OtherKind)
  deriving DecidableEq, Repr

/-- What a declaration is sorted by; the name of an import is its path. -/
structure DeclKey where
  name : String := ""
  typeParams : Nat := 0
  params : Nat := 0
  deriving DecidableEq, Repr

/-- The inside of a container or of a file. The compilation unit and file-scoped namespaces have
no braces. -/
structure Block (δ : Type) where
  braced : Bool := false
  openTrailing : Span := []
  imports : List δ := []
  attributes : List δ := []
  members : List δ := []
  closeLeading : Span := []
  close : String := ""
  deriving Repr

/-- The text of a container ends with its opening brace or semicolon. `lineIndent` is the
indentation of the source line, for a declaration that did not start its line. -/
structure Decl where
  kind : DeclKind
  visibility : Visibility := .unmarked
  key : DeclKey := {}
  leading : Span := []
  text : String
  block : Option (Block Decl) := none
  trailing : Span := []
  lineIndent : Option String := none
  deriving Repr

def Block.decls {δ : Type} (b : Block δ) : List δ :=
  b.imports ++ b.attributes ++ b.members

structure SourceFile where
  byteOrderMark : Bool
  header : Span
  root : Block Decl
  deriving Repr

def byteOrderMark : Char := '\ufeff'

end CSharpTidy
