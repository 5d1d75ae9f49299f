import CSharpTidy.Tree.Decl

/- Removing region markers. Each goes with the indentation in front of it and the line terminator
   behind it; markers need not be paired. -/
namespace CSharpTidy

namespace Span

/-- `kept` holds what stays of the trivia so far, last first, and `behind` says that a marker was
just removed. -/
def stripRegionsFrom (kept : Span) (behind : Bool) (removed : Nat) : Span → Span × Nat
  | [] => (kept.reverse, removed)
  | t :: rest =>
      if behind && t.isEndOfLine then stripRegionsFrom kept false removed rest
      else if t.isRegionMarker then
        stripRegionsFrom (kept.dropWhile Trivia.isWhitespace) true (removed + 1) rest
      else stripRegionsFrom (t :: kept) false removed rest

def stripRegions (span : Span) : Span × Nat :=
  stripRegionsFrom [] false 0 span

end Span

def Decl.stripRegions (d : Decl) : Decl × Nat :=
  let leading := Span.stripRegions d.leading
  let trailing := Span.stripRegions d.trailing
  ({ d with leading := leading.1, trailing := trailing.1 }, leading.2 + trailing.2)

def Block.stripRegions (b : Block Decl) : Block Decl × Nat :=
  let openTrailing := Span.stripRegions b.openTrailing
  let imports := b.imports.map Decl.stripRegions
  let attributes := b.attributes.map Decl.stripRegions
  let members := b.members.map Decl.stripRegions
  let closeLeading := Span.stripRegions b.closeLeading
  let counts := (imports ++ attributes ++ members).map Prod.snd
  ({ b with
      openTrailing := openTrailing.1
      imports := imports.map Prod.fst
      attributes := attributes.map Prod.fst
      members := members.map Prod.fst
      closeLeading := closeLeading.1 },
    counts.foldl Nat.add openTrailing.2 + closeLeading.2)

end CSharpTidy
