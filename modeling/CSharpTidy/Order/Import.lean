import CSharpTidy.Tree.Decl

/- The order of imports: extern aliases, global usings, usings; in the latter two groups standard
   namespaces first, then by path. -/
namespace CSharpTidy

namespace StandardPath

def byteSize : List Char → Nat
  | [] => 0
  | c :: text => c.utf8Size + byteSize text

/-- The text before a byte and from there on, unless the text is shorter or the byte is inside of a
character. -/
def splitAtByte : Nat → List Char → Option (List Char × List Char)
  | 0, text => some ([], text)
  | _ + 1, [] => none
  | n + 1, c :: text =>
      if n + 1 < c.utf8Size then none
      else (splitAtByte (n + 1 - c.utf8Size) text).map (Prod.map (c :: ·) id)

/-- Whether a path is `root` or a namespace below it, up to the case of ASCII letters. -/
def isBelow (root path : List Char) : Bool :=
  (splitAtByte (byteSize root) path).any fun cut =>
    cut.1.map Char.toLower == root.map Char.toLower && cut.2.head?.all (· == '.')

def globalQualifier : List Char := "global::".toList

def withoutGlobal (path : List Char) : List Char :=
  if globalQualifier.isPrefixOf path then path.drop globalQualifier.length else path

end StandardPath

def isStandardPath (roots : List String) (path : String) : Bool :=
  roots.any fun root => StandardPath.isBelow root.toList (StandardPath.withoutGlobal path.toList)

namespace Decl

def importGroup (roots : List String) (d : Decl) : Nat × Nat :=
  let standard := if isStandardPath roots d.key.name then 0 else 1
  match d.kind with
  | .imported .externAlias => (0, 0)
  | .imported .globalUsing => (1, standard)
  | _ => (2, standard)

/-- Extern aliases keep their order among each other. -/
def compareImport (roots : List String) (a b : Decl) : Ordering :=
  let groupA := a.importGroup roots
  let groupB := b.importGroup roots
  (compare groupA.1 groupB.1).then <| (compare groupA.2 groupB.2).then <|
    if groupA.1 == 0 then .eq else compare a.key.name b.key.name

def importLE (roots : List String) (a b : Decl) : Bool :=
  (compareImport roots a b).isLE

end Decl

end CSharpTidy
