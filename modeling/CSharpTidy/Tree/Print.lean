import CSharpTidy.Tree.Decl

/- The text of a tree. -/
namespace CSharpTidy

mutual

def Decl.print : Decl → String
  | ⟨_, _, _, leading, text, block, trailing, _⟩ =>
      Span.text leading ++ text ++ Block.printOption block ++ Span.text trailing

def Block.printOption : Option (Block Decl) → String
  | none => ""
  | some block => Block.print block

def Block.print : Block Decl → String
  | ⟨_, openTrailing, imports, attributes, members, closeLeading, close⟩ =>
      Span.text openTrailing ++ Decl.printAll imports ++ Decl.printAll attributes ++
        Decl.printAll members ++ Span.text closeLeading ++ close

def Decl.printAll : List Decl → String
  | [] => ""
  | d :: rest => Decl.print d ++ Decl.printAll rest

end

def SourceFile.print (file : SourceFile) : String :=
  (if file.byteOrderMark then String.singleton CSharpTidy.byteOrderMark else "") ++
    Span.text file.header ++ file.root.print

end CSharpTidy
