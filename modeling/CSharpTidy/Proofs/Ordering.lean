import CSharpTidy.Proofs.Preservation

/- The two orders that lists are sorted by, and the trees that arranging leaves alone. Each order
   compares a few values one after the other, of which the category of a declaration blanks out
   those that do not count there. -/
namespace CSharpTidy

namespace Decl

def importName (roots : List String) (d : Decl) : String :=
  if (d.importGroup roots).1 == 0 then "" else d.key.name

def importOrder (roots : List String) : Decl → Decl → Ordering :=
  compareLex (compareOn fun d => (d.importGroup roots).1) <|
    compareLex (compareOn fun d => (d.importGroup roots).2) (compareOn (importName roots))

theorem compareImport_eq (roots : List String) (a b : Decl) :
    compareImport roots a b = importOrder roots a b := by
  unfold compareImport importOrder compareLex
  cases h : compare (a.importGroup roots).1 (b.importGroup roots).1 with
  | lt => simp [compareOn, h]
  | gt => simp [compareOn, h]
  | eq =>
    have same : (a.importGroup roots).1 = (b.importGroup roots).1 := Nat.compare_eq_eq.mp h
    simp only [compareOn, importName, ← same]
    split <;> simp

theorem importLE_eq (roots : List String) (a b : Decl) :
    importLE roots a b = (importOrder roots a b).isLE := by
  rw [importLE, compareImport_eq]

variable {a a' b b' : Decl}

theorem memberLE_congr (left : a'.kind = a.kind ∧ a'.visibility = a.visibility ∧ a'.key = a.key)
    (right : b'.kind = b.kind ∧ b'.visibility = b.visibility ∧ b'.key = b.key) :
    memberLE a' b' = memberLE a b := by
  simp only [memberLE, comparePolicy, category, compareMember, compareVisibility, compareName,
    compareParams, compareTypeParams, left, right]

theorem importGroup_congr (roots : List String) {d d' : Decl}
    (same : d'.kind = d.kind ∧ d'.key = d.key) : d'.importGroup roots = d.importGroup roots := by
  rw [importGroup, importGroup, same.1, same.2]

theorem importLE_congr (roots : List String) (left : a'.kind = a.kind ∧ a'.key = a.key)
    (right : b'.kind = b.kind ∧ b'.key = b.key) : importLE roots a' b' = importLE roots a b := by
  simp only [importLE, compareImport, importGroup_congr roots left, importGroup_congr roots right,
    left, right]

end Decl

variable {α : Type}

theorem map_eq_self_iff {f : α → α} {l : List α} : l.map f = l ↔ ∀ a ∈ l, f a = a := by
  conv => lhs; rhs; rw [← List.map_id l]
  exact List.map_inj_left

section Sorting

variable {α : Type} {cmp : α → α → Ordering} [Std.TransCmp cmp] {le : α → α → Bool}

/-- A list is what sorting makes of its images under `f` only if it is in order and `f` leaves its
elements alone, for sorting moves nothing then. -/
theorem sortUnless_map_eq_self_iff (pinned : Bool) (compared : ∀ a b, le a b = (cmp a b).isLE)
    {f : α → α} (keeps : ∀ a b, le (f a) (f b) = le a b) (l : List α) :
    sortUnless pinned le (l.map f) = l ↔
      (∀ a ∈ l, f a = a) ∧ (pinned = false → l.Pairwise fun a b => le a b) := by
  rw [← map_eq_self_iff]
  cases pinned with
  | true => simp [sortUnless]
  | false => ?_
  simp only [sortUnless, Bool.false_eq_true, if_false, forall_const]
  constructor
  · intro sorted
    have inOrder : l.Pairwise fun a b => le a b := by
      have := pairwise_mergeSort_of_compared compared (l.map f)
      rwa [sorted] at this
    have imagesInOrder : (l.map f).Pairwise fun a b => le a b := by
      simpa only [List.pairwise_map, keeps] using inOrder
    rw [List.mergeSort_of_pairwise imagesInOrder] at sorted
    exact ⟨sorted, inOrder⟩
  · rintro ⟨same, inOrder⟩
    rw [same, List.mergeSort_of_pairwise inOrder]

end Sorting

theorem sortUnless_map (pinned : Bool) (le : α → α → Bool) {f : α → α}
    (keeps : ∀ a b, le (f a) (f b) = le a b) (l : List α) :
    sortUnless pinned le (l.map f) = (sortUnless pinned le l).map f := by
  cases pinned with
  | true => rfl
  | false => exact (List.map_mergeSort fun a _ b _ => (keeps a b).symm).symm

theorem Block.normalize_reorganize_sorted (roots : List String) (ending : String)
    (b : Block Decl) :
    (b.reorganize roots).normalize ending = space ending { b with
      openTrailing := Span.stripUnless b.membersGuarded b.openTrailing
      imports := (sortUnless b.importsGuarded (Decl.importLE roots) b.imports).map
        (Decl.stripUnless b.membersGuarded)
      attributes := b.attributes.map (Decl.stripUnless b.membersGuarded)
      members := (sortUnless b.membersGuarded Decl.memberLE b.members).map fun d =>
        (d.tidyBody roots ending).stripUnless b.membersGuarded
      closeLeading := Span.stripUnless b.membersGuarded b.closeLeading } := by
  have arranged := arrange_eq roots { b with members := b.members.map (Decl.mapBlocks (arrange roots)) }
  have imports := sortUnless_map b.importsGuarded (Decl.importLE roots)
    (f := Decl.stripUnless b.membersGuarded)
    (fun _ _ => Decl.importLE_congr roots ⟨rfl, rfl⟩ ⟨rfl, rfl⟩) b.imports
  have members := sortUnless_map b.membersGuarded Decl.memberLE
    (f := Decl.stripUnless b.membersGuarded ∘ Decl.mapBlocks (arrange roots))
    (fun _ _ => Decl.memberLE_congr (by simp [Decl.mapBlocks_eq, Decl.stripUnless])
      (by simp [Decl.mapBlocks_eq, Decl.stripUnless])) b.members
  have guarded : importsGuarded { b with members := b.members.map (Decl.mapBlocks (arrange roots)) } =
      b.importsGuarded := rfl
  rw [membersGuarded_mapBlocks, guarded, imports, List.map_map, members] at arranged
  rw [normalize, mapBlocks_eq, reorganize, mapBlocks_eq, arranged]
  simp only [List.map_map, Function.comp_def, Decl.mapBlocks_stripUnless, Decl.tidyBody]

namespace Span

def Unmarked (span : Span) : Prop :=
  ∀ t ∈ span, t.isRegionMarker = false

instance (span : Span) : Decidable span.Unmarked :=
  inferInstanceAs (Decidable (∀ t ∈ span, t.isRegionMarker = false))

theorem stripRegionsFrom_append_of_unmarked {front : Span} (h : front.Unmarked) (kept : Span)
    (removed : Nat) (rest : Span) :
    stripRegionsFrom kept false removed (front ++ rest) =
      stripRegionsFrom (front.reverse ++ kept) false removed rest := by
  induction front generalizing kept with
  | nil => rfl
  | cons t front ih =>
    obtain ⟨here, later⟩ := List.forall_mem_cons.mp h
    rw [List.cons_append, stripRegionsFrom, if_neg (by simp), if_neg (by simp [here]), ih later,
      List.reverse_cons, List.append_assoc, List.singleton_append]

theorem stripRegionsFrom_of_unmarked {span : Span} (h : span.Unmarked) (kept : Span)
    (removed : Nat) : stripRegionsFrom kept false removed span = (kept.reverse ++ span, removed) := by
  have whole := stripRegionsFrom_append_of_unmarked h kept removed []
  simpa [stripRegionsFrom] using whole

theorem stripRegions_eq_self_iff (span : Span) : (stripRegions span).1 = span ↔ span.Unmarked := by
  constructor
  · intro same t mem
    cases marker : t.isRegionMarker with
    | false => rfl
    | true =>
      have kept : t ∈ solid (stripRegions span).1 := by
        rw [same]
        exact List.mem_filter.mpr ⟨mem, by simp [Trivia.not_isBlank_of_isRegionMarker marker]⟩
      rw [solid_stripRegions, unmarked, List.mem_filter, marker] at kept
      cases kept.2
  · intro unmarked
    simp [stripRegions, stripRegionsFrom_of_unmarked unmarked]

end Span

def Decl.Unmarked (d : Decl) : Prop :=
  Span.Unmarked d.leading ∧ Span.Unmarked d.trailing

/-- The list is in order as far as no directive pins it, and region lines stand only where they
are pinned. -/
structure Block.InOrder (roots : List String) (b : Block Decl) : Prop where
  imports : b.importsGuarded = false → b.imports.Pairwise fun x y => Decl.importLE roots x y
  members : b.membersGuarded = false → b.members.Pairwise fun x y => Decl.memberLE x y
  regions : b.membersGuarded = false →
    Span.Unmarked b.openTrailing ∧ (∀ d ∈ b.decls, d.Unmarked) ∧ Span.Unmarked b.closeLeading

theorem Span.stripUnless_eq_self_iff (pinned : Bool) (span : Span) :
    Span.stripUnless pinned span = span ↔ (pinned = false → span.Unmarked) := by
  cases pinned with
  | true => simp
  | false => simp [Span.stripRegions_eq_self_iff]

theorem Decl.stripUnless_eq_self_iff (pinned : Bool) (d : Decl) :
    d.stripUnless pinned = d ↔ (pinned = false → d.Unmarked) := by
  obtain ⟨kind, visibility, key, leading, text, block, trailing, lineIndent⟩ := d
  simp only [stripUnless, Unmarked, mk.injEq, true_and, and_true, Span.stripUnless_eq_self_iff]
  tauto

theorem Decl.stripUnless_mapBlocks_eq_self_iff (pinned : Bool) (f : Block Decl → Block Decl)
    (d : Decl) :
    (d.mapBlocks f).stripUnless pinned = d ↔ d.mapBlocks f = d ∧ (pinned = false → d.Unmarked) := by
  rw [← stripUnless_eq_self_iff]
  obtain ⟨kind, visibility, key, leading, text, block, trailing, lineIndent⟩ := d
  simp only [mapBlocks_eq, stripUnless, mk.injEq, true_and, and_true]
  tauto

instance (roots : List String) : Std.TransCmp (Decl.importOrder roots) :=
  inferInstanceAs (Std.TransCmp (compareLex _ (compareLex _ _)))

namespace Block

/-- Arranging a block with changed bodies gives the block back only if the bodies are unchanged
and the block was in order. -/
theorem arrange_eq_self_iff (roots : List String) (f : Block Decl → Block Decl) (b : Block Decl) :
    arrange roots { b with members := b.members.map (Decl.mapBlocks f) } = b ↔
      b.members.map (Decl.mapBlocks f) = b.members ∧ b.InOrder roots := by
  have imports := sortUnless_map_eq_self_iff b.importsGuarded (Decl.importLE_eq roots)
    (f := Decl.stripUnless b.membersGuarded)
    (fun _ _ => Decl.importLE_congr roots ⟨rfl, rfl⟩ ⟨rfl, rfl⟩) b.imports
  have members := sortUnless_map_eq_self_iff b.membersGuarded Decl.memberLE_eq
    (f := Decl.stripUnless b.membersGuarded ∘ Decl.mapBlocks f)
    (fun _ _ => Decl.memberLE_congr (by simp [Decl.mapBlocks_eq, Decl.stripUnless])
      (by simp [Decl.mapBlocks_eq, Decl.stripUnless])) b.members
  simp only [Function.comp_apply, Decl.stripUnless_mapBlocks_eq_self_iff,
    Decl.stripUnless_eq_self_iff] at imports members
  rw [arrange_eq, membersGuarded_mapBlocks]
  simp only [List.map_map]
  constructor
  · intro same
    obtain ⟨importsFree, importsSorted⟩ := imports.mp (congrArg Block.imports same)
    obtain ⟨membersFree, membersSorted⟩ := members.mp (congrArg Block.members same)
    have attributesFree := map_eq_self_iff.mp (congrArg Block.attributes same)
    have openFree := (Span.stripUnless_eq_self_iff ..).mp (congrArg Block.openTrailing same)
    have closeFree := (Span.stripUnless_eq_self_iff ..).mp (congrArg Block.closeLeading same)
    simp only [Decl.stripUnless_eq_self_iff] at attributesFree
    refine ⟨map_eq_self_iff.mpr fun d mem => (membersFree d mem).1, importsSorted, membersSorted,
      fun free => ⟨openFree free, fun d mem => ?_, closeFree free⟩⟩
    simp only [decls, List.mem_append] at mem
    rcases mem with (mem | mem) | mem
    · exact importsFree d mem free
    · exact attributesFree d mem free
    · exact (membersFree d mem).2 free
  · rintro ⟨bodies, inOrder⟩
    have free : ∀ d ∈ b.decls, b.membersGuarded = false → d.Unmarked :=
      fun d mem free => (inOrder.regions free).2.1 d mem
    simp only [decls, List.mem_append] at free
    have importsSame := imports.mpr ⟨fun d mem => free d (.inl (.inl mem)), inOrder.imports⟩
    have membersSame := members.mpr
      ⟨fun d mem => ⟨map_eq_self_iff.mp bodies d mem, free d (.inr mem)⟩, inOrder.members⟩
    have attributesSame : b.attributes.map (Decl.stripUnless b.membersGuarded) = b.attributes :=
      map_eq_self_iff.mpr fun d mem =>
        (Decl.stripUnless_eq_self_iff ..).mpr (free d (.inl (.inr mem)))
    have openSame := (Span.stripUnless_eq_self_iff b.membersGuarded b.openTrailing).mpr
      fun free => (inOrder.regions free).1
    have closeSame := (Span.stripUnless_eq_self_iff b.membersGuarded b.closeLeading).mpr
      fun free => (inOrder.regions free).2.2
    rw [membersSame, attributesSame, openSame, closeSame]
    exact congrArg (fun ds => { b with imports := ds }) importsSame

inductive Arranged (roots : List String) : Block Decl → Prop
  | intro {b : Block Decl} (own : b.InOrder roots)
      (bodies : ∀ d ∈ b.members, ∀ body, d.block = some body → Arranged roots body) :
      Arranged roots b

theorem arranged_iff {roots : List String} {b : Block Decl} : b.Arranged roots ↔
    b.InOrder roots ∧ ∀ d ∈ b.members, ∀ body, d.block = some body → Arranged roots body :=
  ⟨fun ⟨own, bodies⟩ => ⟨own, bodies⟩, fun ⟨own, bodies⟩ => ⟨own, bodies⟩⟩

end Block

theorem Block.reorganize_eq_self_iff (roots : List String) (b : Block Decl) :
    b.reorganize roots = b ↔ b.Arranged roots := by
  induction b using Block.induction with
  | step b ih =>
    rw [reorganize, mapBlocks_eq, arrange_eq_self_iff, arranged_iff, map_eq_self_iff, and_comm]
    refine and_congr_right fun _ => forall₂_congr fun d mem => ?_
    have inner := ih d (List.mem_append_right _ mem)
    obtain ⟨kind, visibility, key, leading, text, _ | body, trailing, lineIndent⟩ := d
    · simp [Decl.mapBlocks_eq]
    · simpa [Decl.mapBlocks_eq, reorganize] using inner body rfl

structure SourceFile.Arranged (roots : List String) (file : SourceFile) : Prop where
  header : file.root.membersGuarded = false → file.header.Unmarked
  root : file.root.Arranged roots

theorem SourceFile.reorganize_eq_self_iff (roots : List String) (file : SourceFile) :
    file.reorganize roots = file ↔ file.Arranged roots := by
  obtain ⟨mark, header, root⟩ := file
  have front := Span.stripUnless_eq_self_iff root.membersGuarded header
  simp only [reorganize, mk.injEq, true_and, Block.reorganize_eq_self_iff]
  exact ⟨fun ⟨kept, sorted⟩ => ⟨front.mp kept, sorted⟩,
    fun ⟨kept, sorted⟩ => ⟨front.mpr kept, sorted⟩⟩

end CSharpTidy
