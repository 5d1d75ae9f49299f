import CSharpTidy.Proofs.Ordering
import CSharpTidy.Proofs.Parts

/- A tidied tree is left alone by both passes. Spacing rewrites the blanks of a declaration into a
   form that it does not rewrite again, and it undoes nothing that arranging does: lists stay in
   order, what pins them stays, and no region marker comes back. -/
namespace CSharpTidy

namespace Spacing

theorem apply_apply (ending : String) (spacing : Spacing) (span : Span) :
    spacing.apply ending (spacing.apply ending span) = spacing.apply ending span := by
  cases spacing with
  | free => rfl
  | packed => exact span.stripLeading_stripLeading
  | spaced => exact (Span.oneLeading_eq_self_iff ..).mpr ⟨_, rfl, span.stripLeading_stripLeading⟩

theorem apply_setIndent (ending indent : String) (spacing : Spacing) (span : Span) :
    spacing.apply ending (Span.setIndent indent (spacing.apply ending span)) =
      Span.setIndent indent (spacing.apply ending span) := by
  have packed := Span.stripLeading_setIndent indent span.stripLeading_stripLeading
  cases spacing with
  | free => rfl
  | packed => exact packed
  | spaced =>
    simp only [apply_spaced, Span.oneLeading, Span.setIndent_lineEnd_cons,
      Span.stripLeading_lineEnd_cons ending packed]

end Spacing

theorem Span.endWhen_endWhen (ends : Bool) (ending : String) (span : Span) :
    endWhen ends ending (endWhen ends ending span) = endWhen ends ending span := by
  cases ends with
  | false => rfl
  | true => exact (stripTrailing_eq_self_iff ..).mpr (span.blanksBehind_stripTrailing ending)

namespace Decl

def respace (ending : String) (spacing : Spacing) (ends lineStart : Bool) (d : Decl) : Decl :=
  reindent lineStart { d with
    leading := spacing.apply ending d.leading
    trailing := Span.endWhen ends ending d.trailing }

@[simp] theorem reindent_kind (lineStart : Bool) (d : Decl) : (d.reindent lineStart).kind = d.kind :=
  (Carried.reindent lineStart d).kind

@[simp] theorem reindent_trailing (lineStart : Bool) (d : Decl) :
    (d.reindent lineStart).trailing = d.trailing := by
  unfold reindent
  split
  · split <;> rfl
  · rfl

theorem respace_respace (ending : String) (spacing : Spacing) (ends lineStart : Bool) (d : Decl) :
    (d.respace ending spacing ends lineStart).respace ending spacing ends lineStart =
      d.respace ending spacing ends lineStart := by
  obtain ⟨kind, visibility, key, leading, text, block, trailing, lineIndent⟩ := d
  cases lineIndent with
  | none => simp [respace, reindent, Spacing.apply_apply, Span.endWhen_endWhen]
  | some indent =>
    cases lineStart with
    | false => simp [respace, reindent, Spacing.apply_apply, Span.endWhen_endWhen]
    | true =>
      simp [respace, reindent, Spacing.apply_setIndent, Span.setIndent_setIndent,
        Span.endWhen_endWhen]

theorem respace_kind (ending : String) (spacing : Spacing) (ends lineStart : Bool) (d : Decl) :
    (d.respace ending spacing ends lineStart).kind = d.kind :=
  reindent_kind ..

theorem endsLine_respace (ending : String) (spacing : Spacing) (ends lineStart : Bool) (d : Decl) :
    Span.endsLine (d.respace ending spacing ends lineStart).trailing =
      (ends || Span.endsLine d.trailing) := by
  rw [respace, reindent_trailing, Span.endWhen]
  cases ends <;> simp

theorem spaceMember_eq (ending : String) (d : Decl) : d.spaceMember ending = { d with
    leading := d.kind.spacing.apply ending d.leading
    trailing := Span.endWhen d.kind.endsLine ending d.trailing } := by
  obtain ⟨kind, visibility, key, leading, text, block, trailing, lineIndent⟩ := d
  cases kind <;> rfl

theorem reindentAll_spaceImports (ending : String) (lineStart : Bool) (ds : List Decl) :
    reindentAll lineStart (spaceImports ending ds) =
      match ds with
      | [] => []
      | d :: rest => d.respace ending .spaced true lineStart ::
          rest.map (respace ending .packed true true) := by
  have packed : ∀ ds : List Decl, reindentAll true (ds.map (withoutBlank ending)) =
      ds.map (respace ending .packed true true) := by
    intro ds
    induction ds with
    | nil => rfl
    | cons d ds ih =>
      have ends : Span.endsLine (d.withoutBlank ending).trailing = true :=
        Span.endsLine_stripTrailing ..
      rw [List.map_cons, reindentAll, ends, ih]
      rfl
  cases ds with
  | nil => rfl
  | cons d rest =>
    have ends : Span.endsLine ((d.withoutBlank ending).withLeadingBlank ending).trailing = true :=
      Span.endsLine_stripTrailing ..
    have first : (d.withoutBlank ending).withLeadingBlank ending = { d with
        leading := Span.oneLeading ending d.leading
        trailing := Span.stripTrailing ending d.trailing } := by
      simp [withLeadingBlank, withoutBlank, withoutTrailingBlank, withoutLeadingBlank,
        Span.oneLeading]
    rw [spaceImports, reindentAll, ends, packed, first]
    rfl

theorem reindentAll_spaceMembers_cons (ending : String) (packed lineStart : Bool) (d : Decl)
    (ds : List Decl) :
    reindentAll lineStart (spaceMembers ending packed (d :: ds)) =
      d.respace ending (if packed then .packed else d.kind.spacing) d.kind.endsLine lineStart ::
        reindentAll (d.kind.endsLine || Span.endsLine d.trailing) (spaceMembers ending false ds) := by
  rw [spaceMembers_cons, reindentAll, endsLine_spaceMember]
  cases packed with
  | false => rw [packWhen, spaceMember_eq]; rfl
  | true =>
    have strip := Spacing.stripLeading_apply ending d.kind.spacing d.leading
    simp only [packWhen, if_true, withoutLeadingBlank, spaceMember_eq, strip]
    rfl

theorem reindentAll_spaceImports_twice (ending : String) (lineStart : Bool) (ds : List Decl) :
    reindentAll lineStart (spaceImports ending (reindentAll lineStart (spaceImports ending ds))) =
      reindentAll lineStart (spaceImports ending ds) := by
  rw [reindentAll_spaceImports ending lineStart ds, reindentAll_spaceImports]
  cases ds with
  | nil => rfl
  | cons d rest => simp [respace_respace]

theorem respace_free (ending : String) (lineStart : Bool) (d : Decl) :
    d.respace ending .free false lineStart = d.reindent lineStart := by
  cases d
  rfl

theorem reindentAll_twice (lineStart : Bool) (ds : List Decl) :
    reindentAll lineStart (reindentAll lineStart ds) = reindentAll lineStart ds := by
  induction ds generalizing lineStart with
  | nil => rfl
  | cons d ds ih =>
    have same := respace_respace "" .free false lineStart d
    rw [respace_free, respace_free] at same
    rw [reindentAll, reindentAll, reindent_trailing, ih, same]

theorem reindentAll_spaceMembers_twice (ending : String) (packed lineStart : Bool)
    (ds : List Decl) :
    reindentAll lineStart (spaceMembers ending packed
      (reindentAll lineStart (spaceMembers ending packed ds))) =
      reindentAll lineStart (spaceMembers ending packed ds) := by
  induction ds generalizing packed lineStart with
  | nil => rfl
  | cons d ds ih =>
    rw [reindentAll_spaceMembers_cons, reindentAll_spaceMembers_cons, respace_kind,
      respace_respace, endsLine_respace, ← Bool.or_assoc, Bool.or_self, ih]

end Decl

namespace Decl

theorem CarriedAll.isEmpty {pinned : Bool} {as bs : List Decl} (h : CarriedAll pinned as bs) :
    bs.isEmpty = as.isEmpty := by
  cases h <;> rfl

theorem lineStartAfter_reindentAll (lineStart lineStart' : Bool) (ds : List Decl) :
    lineStartAfter lineStart (reindentAll lineStart' ds) = lineStartAfter lineStart ds := by
  induction ds generalizing lineStart lineStart' with
  | nil => rfl
  | cons d rest ih =>
    cases rest with
    | nil => simp [lineStartAfter, reindentAll]
    | cons e rest =>
      have := ih lineStart (Span.endsLine d.trailing)
      simpa [lineStartAfter, reindentAll, List.getLast?_cons_cons] using this

end Decl

variable {b a : Block Decl} {d : Decl}

namespace Block

theorem space_eq (ending : String) (b : Block Decl) :
    b.space ending = { b with
      openTrailing := b.spaceOpening ending
      imports := Decl.reindentAll b.startsLine (Decl.spaceImports ending b.imports)
      attributes := Decl.reindentAll (!b.imports.isEmpty || b.startsLine) b.attributes
      members := Decl.reindentAll
        (Decl.lineStartAfter (!b.imports.isEmpty || b.startsLine) b.attributes)
        (Decl.spaceMembers ending (b.braced && b.imports.isEmpty && b.attributes.isEmpty) b.members)
      closeLeading := if b.braced then Span.stripLeading b.closeLeading else b.closeLeading } := by
  simp only [space, reindent_eq, startsLine_eq, lineStartAfter_spaceImports]

theorem spaceOpening_spaceOpening {ending : String} (braced : b.braced = a.braced)
    (members : b.members.isEmpty = a.members.isEmpty)
    (opening : b.openTrailing = a.spaceOpening ending) :
    b.spaceOpening ending = a.spaceOpening ending := by
  by_cases opens : a.opensLine
  · have spaced : a.spaceOpening ending = [.lineEnd ending] := if_pos opens
    rw [spaced] at opening ⊢
    rw [spaceOpening, opening, ite_self]
  · have kept : a.spaceOpening ending = a.openTrailing := if_neg opens
    rw [kept] at opening
    unfold spaceOpening
    rw [opening, braced, members]

theorem space_space (ending : String) (b : Block Decl) :
    (b.space ending).space ending = b.space ending := by
  obtain ⟨imports, attributes, members⟩ := space_carried ending b
  have importsEmpty := imports.isEmpty
  have attributesEmpty := attributes.isEmpty
  have membersEmpty := members.isEmpty
  have braced : (b.space ending).braced = b.braced := rfl
  have opening : (b.space ending).spaceOpening ending = b.spaceOpening ending :=
    spaceOpening_spaceOpening rfl membersEmpty rfl
  have starts : (b.space ending).startsLine = b.startsLine := by
    rw [← startsLine_eq ending, ← startsLine_eq ending, opening, braced]
  rw [space_eq ending (b.space ending), opening, starts, importsEmpty, attributesEmpty, braced,
    space_eq ending b]
  simp only [Decl.reindentAll_spaceImports_twice, Decl.lineStartAfter_reindentAll,
    Decl.reindentAll_twice, Decl.reindentAll_spaceMembers_twice]
  cases b.braced <;> simp

end Block

namespace Span

theorem Carried.guard {pinned : Bool} {a b : Span} (h : Carried pinned a b) :
    b.hasGuardMarker = a.hasGuardMarker := by
  rw [hasGuardMarker_eq, h.unmarked, ← hasGuardMarker_eq]

theorem solid_unmarked_iff (span : Span) : span.solid.Unmarked ↔ span.Unmarked := by
  constructor
  · intro free t mem
    by_contra marker
    have notBlank := Trivia.not_isBlank_of_isRegionMarker (by simpa using marker)
    exact marker (free t (List.mem_filter.mpr ⟨mem, by simp [notBlank]⟩))
  · intro free t mem
    exact free t (List.mem_filter.mp mem).1

theorem stripRegions_unmarked (span : Span) : Span.Unmarked (stripRegions span).1 := by
  rw [← solid_unmarked_iff, solid_stripRegions]
  intro t mem
  simpa using (List.mem_filter.mp mem).2

end Span

/-- What arranging looks at in a declaration: what it is sorted by, and whether it is pinned. -/
def Decl.rank (d : Decl) : Decl × Bool :=
  ({ kind := d.kind, visibility := d.visibility, key := d.key, leading := [], text := "",
     trailing := [] }, d.hasGuardMarker)

theorem Decl.Carried.rank {d' : Decl} (h : Carried true d d') : d'.rank = d.rank := by
  simp only [Decl.rank, h.kind, h.visibility, h.key, hasGuardMarker, h.leading.guard,
    h.trailing.guard]

theorem Decl.CarriedAll.rank {as bs : List Decl} (h : CarriedAll true as bs) :
    bs.map Decl.rank = as.map Decl.rank := by
  induction h with
  | nil => rfl
  | cons carried _ ih => rw [List.map_cons, List.map_cons, carried.rank, ih]

theorem Span.Carried.free {span span' : Span} (h : Carried true span span')
    (free : span.Unmarked) : span'.Unmarked := by
  rw [← solid_unmarked_iff, show span'.solid = span.solid from h, solid_unmarked_iff]
  exact free

namespace Block

theorem importsGuarded_of_ranks (imports : b.imports.map Decl.rank = a.imports.map Decl.rank) :
    b.importsGuarded = a.importsGuarded := by
  have same := congrArg (List.any · Prod.snd) imports
  simp only [List.any_map] at same
  exact same

theorem membersGuarded_of_ranks (members : b.members.map Decl.rank = a.members.map Decl.rank)
    (closing : b.closeLeading.hasGuardMarker = a.closeLeading.hasGuardMarker) :
    b.membersGuarded = a.membersGuarded := by
  have same := congrArg (List.any · fun r => r.1.kind == .other .statement || r.2) members
  simp only [List.any_map] at same
  rw [membersGuarded, membersGuarded, closing]
  exact congrArg (· || _) same

theorem InOrder.of_ranks {roots : List String} (h : a.InOrder roots)
    (imports : b.imports.map Decl.rank = a.imports.map Decl.rank)
    (members : b.members.map Decl.rank = a.members.map Decl.rank)
    (closing : b.closeLeading.hasGuardMarker = a.closeLeading.hasGuardMarker)
    (regions : a.membersGuarded = false → Span.Unmarked b.openTrailing ∧
      (∀ d ∈ b.decls, d.Unmarked) ∧ Span.Unmarked b.closeLeading) : b.InOrder roots := by
  have sorted : ∀ (le : Decl → Decl → Bool) {as bs : List Decl},
      (∀ d e : Decl, le d e = le d.rank.1 e.rank.1) → bs.map Decl.rank = as.map Decl.rank →
      as.Pairwise (fun d e => le d e) → bs.Pairwise fun d e => le d e := by
    intro le as bs seen same inOrder
    have moved : ∀ ds : List Decl, ds.Pairwise (fun d e => le d e) ↔
        (ds.map Decl.rank).Pairwise fun x y => le x.1 y.1 := by
      intro ds
      simp only [List.pairwise_map, ← seen]
    rw [moved, same, ← moved]
    exact inOrder
  rw [← membersGuarded_of_ranks members closing] at regions
  refine ⟨fun free => sorted _ (fun _ _ => rfl) imports (h.imports ?_),
    fun free => sorted _ (fun _ _ => rfl) members (h.members ?_), regions⟩
  · rw [← importsGuarded_of_ranks imports, free]
  · rw [← membersGuarded_of_ranks members closing, free]

theorem importsGuarded_arrange (roots : List String) (b : Block Decl) :
    (b.arrange roots).importsGuarded = b.importsGuarded := by
  rw [arrange_eq]
  simp only [importsGuarded, (sortUnless_perm ..).any_eq, List.any_map, Function.comp_def,
    Decl.hasGuardMarker_stripUnless]

theorem membersGuarded_arrange (roots : List String) (b : Block Decl) :
    (b.arrange roots).membersGuarded = b.membersGuarded := by
  have kind : ∀ (pinned : Bool) (d : Decl), (d.stripUnless pinned).kind = d.kind := by
    intro pinned d
    rfl
  rw [arrange_eq]
  simp only [membersGuarded, (sortUnless_perm ..).any_eq, List.any_map, Function.comp_def, kind,
    Decl.hasGuardMarker_stripUnless, Span.hasGuardMarker_stripUnless]

theorem unmarked_arrange (roots : List String) (free : b.membersGuarded = false) :
    Span.Unmarked (b.arrange roots).openTrailing ∧ (∀ d ∈ (b.arrange roots).decls, d.Unmarked) ∧
      Span.Unmarked (b.arrange roots).closeLeading := by
  have stripped : ∀ {ds : List Decl} {d : Decl}, d ∈ ds.map (Decl.stripUnless false) →
      d.Unmarked := by
    intro ds d mem
    obtain ⟨e, -, rfl⟩ := List.mem_map.mp mem
    exact ⟨Span.stripRegions_unmarked _, Span.stripRegions_unmarked _⟩
  rw [arrange_eq, free]
  refine ⟨Span.stripRegions_unmarked _, ?_, Span.stripRegions_unmarked _⟩
  intro d mem
  simp only [decls, List.mem_append, (sortUnless_perm ..).mem_iff] at mem
  rcases mem with (mem | mem) | mem <;> exact stripped mem

theorem arrange_inOrder (roots : List String) (b : Block Decl) :
    (b.arrange roots).InOrder roots where
  imports free := by
    rw [importsGuarded_arrange] at free
    rw [arrange_eq, free]
    exact pairwise_mergeSort_of_compared (Decl.importLE_eq roots) _
  members free := by
    rw [membersGuarded_arrange] at free
    rw [arrange_eq, free]
    exact pairwise_mergeSort_of_compared Decl.memberLE_eq _
  regions free := unmarked_arrange roots (membersGuarded_arrange roots b ▸ free)

end Block

theorem exists_of_forall₂ {α : Type} {R : α → α → Prop} {as bs : List α}
    (h : List.Forall₂ R as bs) {b : α} (mem : b ∈ bs) : ∃ a ∈ as, R a b := by
  induction h with
  | nil => cases mem
  | cons first _ ih =>
    rcases List.mem_cons.mp mem with rfl | later
    · exact ⟨_, List.mem_cons_self, first⟩
    · obtain ⟨a, found, related⟩ := ih later
      exact ⟨a, List.mem_cons_of_mem _ found, related⟩

theorem Decl.mapBlocks_eq_self {f : Block Decl → Block Decl}
    (h : d.block.map (Block.mapBlocks f) = d.block) : d.mapBlocks f = d := by
  rw [mapBlocks_eq, h]
  cases d
  rfl

namespace Block

theorem exists_member_of_space {ending : String} {d' : Decl} (mem : d' ∈ (b.space ending).members) :
    ∃ d ∈ b.members, d'.block = d.block := by
  obtain ⟨-, -, members⟩ := space_carried ending b
  obtain ⟨d, found, carried⟩ := exists_of_forall₂ members mem
  exact ⟨d, found, carried.block⟩

theorem normalize_twice_of_bodies (ending : String) (b : Block Decl)
    (bodies : ∀ d ∈ b.members, ∀ body, d.block = some body →
      (body.normalize ending).normalize ending = body.normalize ending) :
    (b.normalize ending).normalize ending = b.normalize ending := by
  have spaced : b.normalize ending =
      space ending { b with members := b.members.map (Decl.mapBlocks (space ending)) } :=
    mapBlocks_eq ..
  have members : (b.normalize ending).members.map (Decl.mapBlocks (space ending)) =
      (b.normalize ending).members := by
    refine map_eq_self_iff.mpr fun d' mem => Decl.mapBlocks_eq_self ?_
    rw [spaced] at mem
    obtain ⟨e, found, block⟩ := exists_member_of_space mem
    obtain ⟨d, inner, rfl⟩ := List.mem_map.mp found
    rw [block, Decl.mapBlocks_eq]
    cases body : d.block with
    | none => rfl
    | some body' => exact congrArg some (bodies d inner body' body)
  calc (b.normalize ending).normalize ending
      = space ending { b.normalize ending with
          members := (b.normalize ending).members.map (Decl.mapBlocks (space ending)) } :=
        mapBlocks_eq ..
    _ = space ending (b.normalize ending) := by rw [members]
    _ = b.normalize ending := by rw [spaced, space_space]

/-- Spacing leaves alone what arranging looks at, and the bodies play no part in it. -/
theorem space_ranks (ending : String) (f : Block Decl → Block Decl) (b : Block Decl) :
    let c := space ending { b with members := b.members.map (Decl.mapBlocks f) }
    c.imports.map Decl.rank = b.imports.map Decl.rank ∧
      c.members.map Decl.rank = b.members.map Decl.rank ∧
      c.closeLeading.hasGuardMarker = b.closeLeading.hasGuardMarker := by
  intro c
  obtain ⟨imports, -, members⟩ :=
    space_carried ending { b with members := b.members.map (Decl.mapBlocks f) }
  refine ⟨imports.rank, members.rank.trans ?_, (space_closeLeading ending _).guard⟩
  simp only [List.map_map, Function.comp_def, Decl.mapBlocks_eq]
  rfl

theorem space_unmarked (ending : String) (f : Block Decl → Block Decl)
    (free : Span.Unmarked b.openTrailing ∧ (∀ d ∈ b.decls, d.Unmarked) ∧
      Span.Unmarked b.closeLeading) :
    let c := space ending { b with members := b.members.map (Decl.mapBlocks f) }
    Span.Unmarked c.openTrailing ∧ (∀ d ∈ c.decls, d.Unmarked) ∧ Span.Unmarked c.closeLeading := by
  intro c
  obtain ⟨imports, attributes, members⟩ :=
    space_carried ending { b with members := b.members.map (Decl.mapBlocks f) }
  have carried {as bs : List Decl} (h : Decl.CarriedAll true as bs) (known : ∀ d ∈ as, d.Unmarked) :
      ∀ d ∈ bs, d.Unmarked := fun d mem => by
    obtain ⟨d', found, same⟩ := exists_of_forall₂ h mem
    exact ⟨same.leading.free (known d' found).1, same.trailing.free (known d' found).2⟩
  refine ⟨(space_openTrailing ending _).free free.1, ?_, (space_closeLeading ending _).free free.2.2⟩
  have known := free.2.1
  simp only [decls, List.forall_mem_append] at known ⊢
  refine ⟨⟨carried imports known.1.1, carried attributes known.1.2⟩, carried members ?_⟩
  simp only [List.forall_mem_map, Decl.mapBlocks_eq]
  exact known.2

theorem tidied_eq (roots : List String) (ending : String) (b : Block Decl) :
    let a := arrange roots { b with members := b.members.map (Decl.mapBlocks (arrange roots)) }
    (b.reorganize roots).normalize ending =
      space ending { a with members := a.members.map (Decl.mapBlocks (space ending)) } := by
  rw [normalize, mapBlocks_eq, reorganize, mapBlocks_eq]

theorem membersGuarded_tidied (roots : List String) (ending : String) (b : Block Decl) :
    ((b.reorganize roots).normalize ending).membersGuarded = b.membersGuarded := by
  obtain ⟨-, members, closing⟩ := space_ranks ending (space ending) (arrange roots
    { b with members := b.members.map (Decl.mapBlocks (arrange roots)) })
  rw [tidied_eq, membersGuarded_of_ranks members closing, membersGuarded_arrange,
    membersGuarded_mapBlocks]

theorem tidied_inOrder (roots : List String) (ending : String) (b : Block Decl) :
    ((b.reorganize roots).normalize ending).InOrder roots := by
  have sorted := arrange_inOrder roots
    { b with members := b.members.map (Decl.mapBlocks (arrange roots)) }
  obtain ⟨imports, members, closing⟩ := space_ranks ending (space ending) (arrange roots
    { b with members := b.members.map (Decl.mapBlocks (arrange roots)) })
  rw [tidied_eq]
  exact sorted.of_ranks imports members closing fun free => space_unmarked _ _ (sorted.regions free)

theorem arranged_of_bodies (roots : List String) (ending : String) (b : Block Decl)
    (bodies : ∀ d ∈ b.members, ∀ body, d.block = some body →
      ((body.reorganize roots).normalize ending).Arranged roots) :
    ((b.reorganize roots).normalize ending).Arranged roots := by
  refine .intro (tidied_inOrder roots ending b) fun d' mem body' bodied => ?_
  rw [normalize_reorganize_sorted] at mem
  obtain ⟨e, found, block⟩ := exists_member_of_space mem
  obtain ⟨d, inner, rfl⟩ := List.mem_map.mp found
  have tidied : (d.tidyBody roots ending).block = some body' := block.symm.trans bodied
  simp only [Decl.tidyBody, Decl.mapBlocks_eq, Option.map_map, Option.map_eq_some_iff] at tidied
  obtain ⟨body, old, rfl⟩ := tidied
  exact bodies d ((sortUnless_perm ..).mem_iff.mp inner) body old

end Block

theorem Block.normalize_twice (ending : String) (b : Block Decl) :
    (b.normalize ending).normalize ending = b.normalize ending := by
  induction b using Block.induction with
  | step b ih =>
    exact normalize_twice_of_bodies ending b fun d mem => ih d (List.mem_append_right _ mem)

theorem Block.tidied_arranged (roots : List String) (ending : String) (b : Block Decl) :
    ((b.reorganize roots).normalize ending).Arranged roots := by
  induction b using Block.induction with
  | step b ih =>
    exact arranged_of_bodies roots ending b fun d mem => ih d (List.mem_append_right _ mem)

theorem SourceFile.tidied_arranged (roots : List String) (ending : String) (f : SourceFile) :
    ((f.reorganize roots).normalize ending).Arranged roots := by
  refine ⟨fun free => ?_, f.root.tidied_arranged roots ending⟩
  have unpinned := (f.root.membersGuarded_tidied roots ending).symm.trans free
  simp only [normalize, reorganize, unpinned]
  exact Span.stripRegions_unmarked f.header

/-- A tidied tree, read from a text or not, is left as it is by both passes. -/
theorem SourceFile.tidy_twice (roots : List String) (ending : String) (f : SourceFile) :
    let g := (f.reorganize roots).normalize ending
    g.reorganize roots = g ∧ g.normalize ending = g := by
  refine ⟨(reorganize_eq_self_iff roots _).mpr (f.tidied_arranged roots ending), ?_⟩
  exact congrArg (fun root => { (f.reorganize roots).normalize ending with root := root })
    (Block.normalize_twice ending (f.root.reorganize roots))

end CSharpTidy
