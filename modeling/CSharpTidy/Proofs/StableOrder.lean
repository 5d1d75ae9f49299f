import CSharpTidy.Proofs.Ordering

/- Arranging is a stable sort, in every block of a tree. Each list comes out as the only one that
   has the same declarations in order and leaves declarations that tie as they stood, unless a
   directive pins it. -/
namespace CSharpTidy

namespace Decl

theorem transCmp_compareImport (roots : List String) : Std.TransCmp (compareImport roots) :=
  transCmp_of_eq (importOrder roots) id (compareImport_eq roots)

theorem transCmp_compareMember (c : Category) :
    Std.TransCmp fun a b : { d : Decl // d.category = c } => compareMember a.1 b.1 := by
  apply transCmp_of_eq comparePolicy Subtype.val
  intro a b
  exact (comparePolicy_of_category (a.2.trans b.2.symm)).symm

def reorganized (roots : List String) (pinned : Bool) (d : Decl) : Decl :=
  { d.stripUnless pinned with block := d.block.map (Block.reorganize roots) }

end Decl

namespace Block

inductive Within (inner : Block Decl) : Block Decl → Prop
  | self : Within inner inner
  | body {b body : Block Decl} {d : Decl} (member : d ∈ b.members) (bodied : d.block = some body)
      (deeper : Within inner body) : Within inner b

/-- What arranging makes of the lists of a block. -/
structure Reordered (roots : List String) (b b' : Block Decl) : Prop where
  members : b.membersGuarded = false → ∀ members, members = b'.members ↔
    StableSort Decl.comparePolicy (b.members.map (Decl.reorganized roots false)) members
  membersPinned : b.membersGuarded = true →
    b'.members = b.members.map (Decl.reorganized roots true)
  imports : b.importsGuarded = false → ∀ imports, imports = b'.imports ↔
    StableSort (Decl.compareImport roots) (b.imports.map (Decl.stripUnless b.membersGuarded)) imports
  importsPinned : b.importsGuarded = true →
    b'.imports = b.imports.map (Decl.stripUnless b.membersGuarded)

theorem reorganize_imports (roots : List String) (b : Block Decl) :
    (b.reorganize roots).imports = sortUnless b.importsGuarded (Decl.importLE roots)
      (b.imports.map (Decl.stripUnless b.membersGuarded)) := by
  rw [reorganize, mapBlocks_eq, arrange_eq, membersGuarded_mapBlocks]
  rfl

theorem reorganize_members (roots : List String) (b : Block Decl) :
    (b.reorganize roots).members = sortUnless b.membersGuarded Decl.memberLE
      (b.members.map (Decl.reorganized roots b.membersGuarded)) := by
  rw [reorganize, mapBlocks_eq, arrange_eq, membersGuarded_mapBlocks]
  simp only [List.map_map]
  congr 2
  funext d
  simp only [Function.comp_apply, Decl.mapBlocks_eq, Decl.reorganized, Decl.stripUnless]
  rfl

theorem reordered (roots : List String) (b : Block Decl) :
    b.Reordered roots (b.reorganize roots) where
  members := by
    intro free members
    rw [reorganize_members, free]
    exact StableSort.eq_mergeSort_iff Decl.memberLE_isLE
  membersPinned := by
    intro pinned
    rw [reorganize_members, pinned]
    rfl
  imports := by
    intro free imports
    have := Decl.transCmp_compareImport roots
    rw [reorganize_imports, free]
    exact StableSort.eq_mergeSort_iff fun _ _ => rfl
  importsPinned := by
    intro pinned
    rw [reorganize_imports, pinned]
    rfl

variable {roots : List String} {b : Block Decl}

theorem mem_reorganize_members {d' : Decl} : d' ∈ (b.reorganize roots).members ↔
      ∃ d ∈ b.members, d.reorganized roots b.membersGuarded = d' := by
  rw [reorganize_members, (sortUnless_perm _ _ _).mem_iff, List.mem_map]

theorem Within.reorganize (roots : List String) {inner : Block Decl} (within : inner.Within b) :
    (inner.reorganize roots).Within (b.reorganize roots) := by
  induction within with
  | self => exact .self
  | body member bodied deeper ih =>
    apply Within.body (mem_reorganize_members.mpr ⟨_, member, rfl⟩) _ ih
    simp [Decl.reorganized, bodied]

/-- A block of the result comes from a block of the tree. The induction is on where it stands in
the result, and the tree is found on the way down. -/
theorem Within.of_reorganize {r b' : Block Decl} (within : r.Within b') :
    ∀ b : Block Decl, b' = b.reorganize roots →
      ∃ inner : Block Decl, inner.Within b ∧ r = inner.reorganize roots := by
  induction within with
  | self =>
    intro b same
    exact ⟨b, .self, same⟩
  | body member bodied deeper ih =>
    intro b same
    subst same
    obtain ⟨d, mem, rfl⟩ := mem_reorganize_members.mp member
    obtain ⟨body, bodied', rfl⟩ := Option.map_eq_some_iff.mp bodied
    obtain ⟨inner, found, same⟩ := ih body rfl
    exact ⟨inner, .body mem bodied' found, same⟩

/-- The comparisons are total preorders, arranging a block is the stable sort by them, and the
blocks of an arranged tree are its blocks, each arranged. -/
theorem reorganize_stable (roots : List String) :
    Std.TransCmp (Decl.compareImport roots) ∧
      (∀ c : Category,
        Std.TransCmp fun a b : { d : Decl // d.category = c } => Decl.compareMember a.1 b.1) ∧
      (∀ b : Block Decl, b.Reordered roots (b.reorganize roots)) ∧
      ∀ b r : Block Decl, r.Within (b.reorganize roots) ↔
        ∃ inner : Block Decl, inner.Within b ∧ r = inner.reorganize roots := by
  refine ⟨Decl.transCmp_compareImport roots, Decl.transCmp_compareMember, reordered roots, ?_⟩
  intro b r
  constructor
  · intro within
    exact within.of_reorganize b rfl
  · rintro ⟨inner, within, rfl⟩
    exact within.reorganize roots

end Block

end CSharpTidy
