import CSharpTidy.Layout.BlankLines
import CSharpTidy.Tree.MapBlocks

/- Blank lines of a tree. Imports and fields are packed; properties, constructors, methods,
   containers and enums have one blank line before them; other declarations keep their spacing.
   Nothing is blank right behind an opening brace or before a closing one. -/
namespace CSharpTidy

def Span.endsLine (span : Span) : Bool :=
  span.getLast?.any Trivia.isEndOfLine

/-- Replaces the white space in front of the last line's content. -/
def Span.setIndent (indent : String) (span : Span) : Span :=
  let line := (span.reverse.takeWhile fun t => !t.isEndOfLine).reverse
  let before := (span.reverse.dropWhile fun t => !t.isEndOfLine).reverse
  let indentation : Span := if indent.isEmpty then [] else [⟨.whitespace, indent⟩]
  before ++ indentation ++ line.dropWhile Trivia.isWhitespace

namespace Decl

def spaceMember (ending : String) (d : Decl) : Decl :=
  match d.kind with
  | .field => d.withoutBlank ending
  | .property | .constructor | .method | .container _ | .enum =>
      (d.withLeadingBlank ending).withoutTrailingBlank ending
  | .imported _ | .other _ => d

def spaceImports (ending : String) : List Decl → List Decl
  | [] => []
  | first :: rest =>
      (first.withoutBlank ending).withLeadingBlank ending :: rest.map (withoutBlank ending)

/-- With `packed`, the first member has no blank line before it. -/
def spaceMembers (ending : String) (packed : Bool) (members : List Decl) : List Decl :=
  match members.map (spaceMember ending) with
  | [] => []
  | first :: rest => (if packed then first.withoutLeadingBlank else first) :: rest

/-- Gives a declaration that was split off its line the indentation of that line, if a line
starts here. -/
def reindent (lineStart : Bool) (d : Decl) : Decl :=
  match d.lineIndent with
  | some indent => if lineStart then { d with leading := Span.setIndent indent d.leading } else d
  | none => d

def reindentAll (lineStart : Bool) : List Decl → List Decl
  | [] => []
  | d :: rest => d.reindent lineStart :: reindentAll (Span.endsLine d.trailing) rest

/-- Whether a line starts behind declarations in front of which `lineStart` says so. -/
def lineStartAfter (lineStart : Bool) (ds : List Decl) : Bool :=
  match ds.getLast? with
  | some d => Span.endsLine d.trailing
  | none => lineStart

end Decl

namespace Block

/-- The line of an opening brace ends behind it, unless something else stands there. -/
def spaceOpening (ending : String) (b : Block Decl) : Span :=
  if (b.braced || !b.openTrailing.isEmpty) && Span.isBlank b.openTrailing &&
      (!b.members.isEmpty || b.openTrailing.any Trivia.isEndOfLine) then
    [.lineEnd ending]
  else b.openTrailing

def reindent (b : Block Decl) : Block Decl :=
  let atImports :=
    match b.openTrailing.getLast? with
    | some t => t.isEndOfLine
    | none => !b.braced
  let atAttributes := Decl.lineStartAfter atImports b.imports
  let atMembers := Decl.lineStartAfter atAttributes b.attributes
  { b with
    imports := Decl.reindentAll atImports b.imports
    attributes := Decl.reindentAll atAttributes b.attributes
    members := Decl.reindentAll atMembers b.members }

def space (ending : String) (b : Block Decl) : Block Decl :=
  reindent
    { b with
      openTrailing := b.spaceOpening ending
      imports := Decl.spaceImports ending b.imports
      members := Decl.spaceMembers ending
        (b.braced && b.imports.isEmpty && b.attributes.isEmpty) b.members
      closeLeading := if b.braced then Span.stripLeading b.closeLeading else b.closeLeading }

def normalize (ending : String) (b : Block Decl) : Block Decl :=
  b.mapBlocks (space ending)

end Block

def SourceFile.normalize (ending : String) (file : SourceFile) : SourceFile :=
  { file with root := file.root.normalize ending }

end CSharpTidy
