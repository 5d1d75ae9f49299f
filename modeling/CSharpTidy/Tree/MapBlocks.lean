import CSharpTidy.Tree.Decl

/- Changing every block of a tree, inner blocks first. Only members have blocks. -/
namespace CSharpTidy

mutual

def Decl.mapBlocks (f : Block Decl → Block Decl) : Decl → Decl
  | ⟨kind, visibility, key, leading, text, block, trailing, lineIndent⟩ =>
      ⟨kind, visibility, key, leading, text, Block.mapBlocksOption f block, trailing, lineIndent⟩

def Block.mapBlocksOption (f : Block Decl → Block Decl) : Option (Block Decl) → Option (Block Decl)
  | none => none
  | some block => some (Block.mapBlocks f block)

def Block.mapBlocks (f : Block Decl → Block Decl) : Block Decl → Block Decl
  | ⟨braced, openTrailing, imports, attributes, members, closeLeading, close⟩ =>
      f ⟨braced, openTrailing, imports, attributes, Decl.mapBlocksAll f members, closeLeading,
        close⟩

def Decl.mapBlocksAll (f : Block Decl → Block Decl) : List Decl → List Decl
  | [] => []
  | d :: rest => Decl.mapBlocks f d :: Decl.mapBlocksAll f rest

end

end CSharpTidy
