import CSharpTidy.Order.Guard
import CSharpTidy.Order.Import
import CSharpTidy.Order.Member
import CSharpTidy.Order.Region
import CSharpTidy.Tree.MapBlocks

/- Arranging a tree: in every block imports and members are sorted, with equal ones in their old
   order, and region lines are dropped, as far as no directive pins them. -/
namespace CSharpTidy

namespace Block

def sortImports (roots : List String) (b : Block Decl) : Block Decl :=
  if b.importsGuarded then b
  else { b with imports := b.imports.mergeSort (Decl.importLE roots) }

def sortMembers (b : Block Decl) : Block Decl :=
  { b with members := Decl.sortByCategory b.members }

def arrange (roots : List String) (b : Block Decl) : Block Decl :=
  if b.membersGuarded then b.sortImports roots
  else (b.stripRegions.1.sortImports roots).sortMembers

def reorganize (roots : List String) (b : Block Decl) : Block Decl :=
  b.mapBlocks (arrange roots)

end Block

/-- The header loses its region lines together with the root block. -/
def SourceFile.reorganize (roots : List String) (file : SourceFile) : SourceFile :=
  { file with
    header := if file.root.membersGuarded then file.header
      else (Span.stripRegions file.header).1
    root := file.root.reorganize roots }

end CSharpTidy
