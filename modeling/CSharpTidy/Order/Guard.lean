import CSharpTidy.Tree.Decl

/- Which lists keep their order. Moving a declaration over a directive other than a region marker
   could change what some build sees, and statements run in order. -/
namespace CSharpTidy

def Decl.hasGuardMarker (d : Decl) : Bool :=
  Span.hasGuardMarker d.leading || Span.hasGuardMarker d.trailing

namespace Block

def importsGuarded (b : Block Decl) : Bool :=
  b.imports.any Decl.hasGuardMarker

def membersGuarded (b : Block Decl) : Bool :=
  b.members.any (fun d => d.kind == .other .statement || d.hasGuardMarker) ||
    Span.hasGuardMarker b.closeLeading

end Block

end CSharpTidy
