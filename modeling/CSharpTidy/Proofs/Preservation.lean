import CSharpTidy.Layout.Spacing
import CSharpTidy.Proofs.SpanContent
import CSharpTidy.Proofs.StableSort
import Mathlib.Data.List.Forall2

/- Tidying loses nothing. Every declaration is found again with its text, its comments and its
   directives; what may change is the order of a list, blanks, and whether region markers stay. -/
namespace CSharpTidy

/-- Blanks aside, the second span has the trivia of the first in order. Region markers all stay
with `pinned`, and are all gone without. -/
def Span.Carried (pinned : Bool) (a b : Span) : Prop :=
  b.solid = if pinned then a.solid else a.unmarked

/-- The same declaration with the same body, up to what may change in the spans around it. -/
structure Decl.Carried (pinned : Bool) (d d' : Decl) : Prop where
  kind : d'.kind = d.kind
  visibility : d'.visibility = d.visibility
  key : d'.key = d.key
  text : d'.text = d.text
  block : d'.block = d.block
  lineIndent : d'.lineIndent = d.lineIndent
  leading : Span.Carried pinned d.leading d'.leading
  trailing : Span.Carried pinned d.trailing d'.trailing

mutual

/-- A block after tidying. Imports and members are matched with those of the first block in some
order, attributes in their own. Only members have bodies that are tidied in turn. -/
inductive Block.Tidied : Block Decl → Block Decl → Prop
  | intro {a b : Block Decl} {imports members tidied : List Decl}
      (braced : b.braced = a.braced)
      (close : b.close = a.close)
      (openTrailing : Span.Carried a.membersGuarded a.openTrailing b.openTrailing)
      (closeLeading : Span.Carried a.membersGuarded a.closeLeading b.closeLeading)
      (importsMatched : imports.Perm a.imports)
      (importsCarried : List.Forall₂ (Decl.Carried a.membersGuarded) imports b.imports)
      (attributesCarried :
        List.Forall₂ (Decl.Carried a.membersGuarded) a.attributes b.attributes)
      (membersMatched : members.Perm a.members)
      (bodiesTidied : List.Forall₂ Decl.BodyTidied members tidied)
      (membersCarried : List.Forall₂ (Decl.Carried a.membersGuarded) tidied b.members) :
      Block.Tidied a b

inductive Decl.BodyTidied : Decl → Decl → Prop
  | leaf {d : Decl} (unbodied : d.block = none) : Decl.BodyTidied d d
  | container {d : Decl} {a b : Block Decl} (bodied : d.block = some a)
      (body : Block.Tidied a b) : Decl.BodyTidied d { d with block := some b }

end

structure SourceFile.Tidied (f g : SourceFile) : Prop where
  byteOrderMark : g.byteOrderMark = f.byteOrderMark
  header : Span.Carried f.root.membersGuarded f.header g.header
  root : Block.Tidied f.root g.root

def Span.stripUnless (pinned : Bool) (span : Span) : Span :=
  if pinned then span else (Span.stripRegions span).1

def Decl.stripUnless (pinned : Bool) (d : Decl) : Decl :=
  { d with
    leading := Span.stripUnless pinned d.leading
    trailing := Span.stripUnless pinned d.trailing }

@[simp] theorem Span.stripUnless_pinned : Span.stripUnless true = id := rfl

@[simp] theorem Span.stripUnless_free (span : Span) :
    Span.stripUnless false span = (Span.stripRegions span).1 := rfl

@[simp] theorem Decl.stripUnless_pinned : Decl.stripUnless true = id := by
  funext d
  cases d
  rfl

@[simp] theorem Decl.stripUnless_free :
    Decl.stripUnless false = Prod.fst ∘ Decl.stripRegions := rfl

variable {pinned : Bool} {a b : Span} {α : Type}

namespace Span.Carried

theorem of_solid (h : b.solid = a.solid) : Span.Carried true a b := h

theorem trans {c : Span} (first : Span.Carried pinned a b) (second : Span.Carried true b c) :
    Span.Carried pinned a c :=
  Eq.trans second first

theorem stripUnless (pinned : Bool) (span : Span) :
    Span.Carried pinned span (Span.stripUnless pinned span) := by
  cases pinned with
  | false => exact solid_stripRegions span
  | true => rfl

end Span.Carried

namespace Decl.Carried

variable {d : Decl}

theorem of_solid {leading trailing : Span} (front : leading.solid = d.leading.solid)
    (back : trailing.solid = d.trailing.solid) :
    Carried true d { d with leading := leading, trailing := trailing } :=
  ⟨rfl, rfl, rfl, rfl, rfl, rfl, .of_solid front, .of_solid back⟩

theorem refl (d : Decl) : Carried true d d :=
  ⟨rfl, rfl, rfl, rfl, rfl, rfl, rfl, rfl⟩

theorem trans {d' d'' : Decl} (first : Carried pinned d d') (second : Carried true d' d'') :
    Carried pinned d d'' where
  kind := second.kind.trans first.kind
  visibility := second.visibility.trans first.visibility
  key := second.key.trans first.key
  text := second.text.trans first.text
  block := second.block.trans first.block
  lineIndent := second.lineIndent.trans first.lineIndent
  leading := first.leading.trans second.leading
  trailing := first.trailing.trans second.trailing

theorem stripUnless (pinned : Bool) (d : Decl) : Carried pinned d (d.stripUnless pinned) :=
  ⟨rfl, rfl, rfl, rfl, rfl, rfl, .stripUnless _ _, .stripUnless _ _⟩

theorem withoutLeadingBlank (d : Decl) : Carried true d d.withoutLeadingBlank :=
  of_solid (Span.solid_stripLeading _) rfl

theorem withoutTrailingBlank (ending : String) (d : Decl) :
    Carried true d (d.withoutTrailingBlank ending) :=
  of_solid rfl (Span.solid_stripTrailing _ _)

theorem withLeadingBlank (ending : String) (d : Decl) : Carried true d (d.withLeadingBlank ending) :=
  of_solid (Span.solid_oneLeading _ _) rfl

theorem withoutBlank (ending : String) (d : Decl) : Carried true d (d.withoutBlank ending) :=
  (withoutLeadingBlank d).trans (withoutTrailingBlank ending _)

theorem spaceMember (ending : String) (d : Decl) : Carried true d (d.spaceMember ending) := by
  unfold Decl.spaceMember
  split
  · exact withoutBlank ending d
  all_goals first
    | exact (withLeadingBlank ending d).trans (withoutTrailingBlank ending _)
    | exact refl d

theorem reindent (lineStart : Bool) (d : Decl) : Carried true d (d.reindent lineStart) := by
  unfold Decl.reindent
  split
  · split
    · exact of_solid (Span.solid_setIndent _ _) rfl
    · exact refl d
  · exact refl d

end Decl.Carried

abbrev Decl.CarriedAll (pinned : Bool) : List Decl → List Decl → Prop :=
  List.Forall₂ (Decl.Carried pinned)

namespace Decl.CarriedAll

theorem map {f : Decl → Decl} (h : ∀ d, Carried pinned d (f d)) (ds : List Decl) :
    CarriedAll pinned ds (ds.map f) :=
  List.forall₂_map_right_iff.mpr (List.forall₂_same.mpr fun d _ => h d)

theorem trans {as bs cs : List Decl} (first : CarriedAll pinned as bs)
    (second : CarriedAll true bs cs) : CarriedAll pinned as cs := by
  induction first generalizing cs with
  | nil => cases second; exact .nil
  | cons h _ ih =>
    cases second with
    | cons h' rest => exact .cons (h.trans h') (ih rest)

theorem spaceImports (ending : String) (ds : List Decl) :
    CarriedAll true ds (Decl.spaceImports ending ds) := by
  cases ds with
  | nil => exact .nil
  | cons d rest =>
    exact .cons ((Carried.withoutBlank ending d).trans (.withLeadingBlank ending _))
      (map (Carried.withoutBlank ending) rest)

theorem spaceMembers (ending : String) (packed : Bool) (ds : List Decl) :
    CarriedAll true ds (Decl.spaceMembers ending packed ds) := by
  cases ds with
  | nil => exact .nil
  | cons d rest =>
    refine .cons ?_ (map (Carried.spaceMember ending) rest)
    cases packed with
    | false => exact .spaceMember ending d
    | true => exact (Carried.spaceMember ending d).trans (.withoutLeadingBlank _)

theorem reindentAll (lineStart : Bool) (ds : List Decl) :
    CarriedAll true ds (Decl.reindentAll lineStart ds) := by
  induction ds generalizing lineStart with
  | nil => exact .nil
  | cons d rest ih => exact .cons (.reindent lineStart d) (ih _)

end Decl.CarriedAll

theorem exists_perm_forall₂ {R : α → α → Prop} {as bs bs' : List α} (h : List.Forall₂ R as bs)
    (perm : bs'.Perm bs) : ∃ as', as'.Perm as ∧ List.Forall₂ R as' bs' := by
  obtain ⟨as', matched, perm'⟩ := List.perm_comp_forall₂ perm h.flip
  exact ⟨as', perm', matched.flip⟩

theorem Decl.mapBlocks_eq (f : Block Decl → Block Decl) (d : Decl) :
    d.mapBlocks f = { d with block := d.block.map (Block.mapBlocks f) } := by
  obtain ⟨kind, visibility, key, leading, text, block, trailing, lineIndent⟩ := d
  cases block <;> rfl

theorem Decl.mapBlocksAll_eq (f : Block Decl → Block Decl) (ds : List Decl) :
    Decl.mapBlocksAll f ds = ds.map (Decl.mapBlocks f) := by
  induction ds with
  | nil => rfl
  | cons d rest ih => rw [mapBlocksAll, ih, List.map_cons]

theorem Block.mapBlocks_eq (f : Block Decl → Block Decl) (b : Block Decl) :
    b.mapBlocks f = f { b with members := b.members.map (Decl.mapBlocks f) } := by
  cases b
  rw [mapBlocks, Decl.mapBlocksAll_eq]

theorem Block.membersGuarded_mapBlocks (f : Block Decl → Block Decl) (b : Block Decl) :
    membersGuarded { b with members := b.members.map (Decl.mapBlocks f) } = b.membersGuarded := by
  simp only [membersGuarded, List.any_map]
  congr 2
  funext d
  simp [Decl.mapBlocks_eq, Decl.hasGuardMarker]

theorem Decl.mapBlocks_stripUnless (f : Block Decl → Block Decl) (pinned : Bool) (d : Decl) :
    (d.stripUnless pinned).mapBlocks f = (d.mapBlocks f).stripUnless pinned := by
  simp only [mapBlocks_eq, stripUnless]

def Decl.tidyBody (roots : List String) (ending : String) (d : Decl) : Decl :=
  (d.mapBlocks (Block.arrange roots)).mapBlocks (Block.space ending)

theorem Trivia.isGuardMarker_eq (t : Trivia) :
    t.isGuardMarker = (t.isGuardMarker && !t.isRegionMarker && !t.isBlank) := by
  obtain ⟨kind, text⟩ := t
  cases kind <;> simp [isGuardMarker, isRegionMarker, isBlank, isWhitespace, isEndOfLine,
    DirectiveKind.isGuardMarker]

theorem Span.filter_isGuardMarker (span : Span) :
    span.unmarked.filter Trivia.isGuardMarker = span.filter Trivia.isGuardMarker := by
  rw [unmarked, solid, List.filter_filter, List.filter_filter]
  congr 1
  funext t
  exact t.isGuardMarker_eq.symm

theorem Span.hasGuardMarker_eq (span : Span) :
    span.hasGuardMarker = span.unmarked.any Trivia.isGuardMarker := by
  have filtered : ∀ s : Span,
      s.any Trivia.isGuardMarker = (s.filter Trivia.isGuardMarker).any Trivia.isGuardMarker := by
    simp [List.any_filter]
  rw [hasGuardMarker, filtered, ← filter_isGuardMarker, ← filtered]

theorem Span.Carried.unmarked (h : Carried pinned a b) : b.unmarked = a.unmarked := by
  unfold Carried at h
  cases pinned with
  | true => rw [Span.unmarked, h, if_pos rfl, ← Span.unmarked]
  | false => simp [Span.unmarked, h]

theorem Span.hasGuardMarker_stripUnless (pinned : Bool) (span : Span) :
    (stripUnless pinned span).hasGuardMarker = span.hasGuardMarker := by
  cases pinned with
  | true => rfl
  | false =>
    simp only [stripUnless_free, hasGuardMarker_eq, unmarked, solid_stripRegions, List.filter_filter,
      Bool.and_self]

theorem Decl.hasGuardMarker_stripUnless (pinned : Bool) (d : Decl) :
    (d.stripUnless pinned).hasGuardMarker = d.hasGuardMarker := by
  simp only [hasGuardMarker, stripUnless, Span.hasGuardMarker_stripUnless]

/-- A list that is sorted unless it is pinned. -/
def sortUnless {α : Type} (pinned : Bool) (le : α → α → Bool) (l : List α) : List α :=
  if pinned then l else l.mergeSort le

theorem sortUnless_perm (pinned : Bool) (le : α → α → Bool) (l : List α) :
    (sortUnless pinned le l).Perm l := by
  cases pinned with
  | true => exact .refl l
  | false => exact List.mergeSort_perm l le

namespace Block

theorem sortImports_eq (roots : List String) (b : Block Decl) :
    b.sortImports roots =
      { b with imports := sortUnless b.importsGuarded (Decl.importLE roots) b.imports } := by
  unfold sortImports sortUnless
  split <;> rfl

/-- Arranging a block sorts its imports and its members and drops its region lines, each as far as
nothing pins them. -/
theorem arrange_eq (roots : List String) (b : Block Decl) :
    b.arrange roots = { b with
      openTrailing := Span.stripUnless b.membersGuarded b.openTrailing
      imports := sortUnless b.importsGuarded (Decl.importLE roots)
        (b.imports.map (Decl.stripUnless b.membersGuarded))
      attributes := b.attributes.map (Decl.stripUnless b.membersGuarded)
      members := sortUnless b.membersGuarded Decl.memberLE
        (b.members.map (Decl.stripUnless b.membersGuarded))
      closeLeading := Span.stripUnless b.membersGuarded b.closeLeading } := by
  cases guarded : b.membersGuarded with
  | true =>
    rw [arrange, if_pos guarded, sortImports_eq]
    simp [sortUnless]
  | false =>
    have imports : b.stripRegions.1.importsGuarded = b.importsGuarded := by
      simp only [importsGuarded, stripRegions, List.any_map]
      congr 1
      funext d
      exact Decl.hasGuardMarker_stripUnless false d
    rw [arrange, if_neg (by simp [guarded]), sortImports_eq, imports]
    simp [sortMembers, Decl.sortByCategory_eq, stripRegions, sortUnless]

theorem space_carried (ending : String) (b : Block Decl) :
    Decl.CarriedAll true b.imports (b.space ending).imports ∧
      Decl.CarriedAll true b.attributes (b.space ending).attributes ∧
      Decl.CarriedAll true b.members (b.space ending).members :=
  ⟨(Decl.CarriedAll.spaceImports _ _).trans (.reindentAll _ _), .reindentAll _ _,
    (Decl.CarriedAll.spaceMembers _ _ _).trans (.reindentAll _ _)⟩

theorem space_openTrailing (ending : String) (b : Block Decl) :
    Span.Carried true b.openTrailing (b.space ending).openTrailing := by
  simp only [space, reindent, spaceOpening]
  split
  · rename_i blank
    simp only [Bool.and_eq_true] at blank
    exact (Span.solid_eq_nil_of_isBlank blank.1.2).symm
  · rfl

theorem space_closeLeading (ending : String) (b : Block Decl) :
    Span.Carried true b.closeLeading (b.space ending).closeLeading := by
  simp only [space, reindent]
  split
  · exact Span.solid_stripLeading _
  · rfl

theorem normalize_reorganize_eq (roots : List String) (ending : String) (b : Block Decl) :
    ∃ imports members : List Decl,
      imports.Perm (b.imports.map (Decl.stripUnless b.membersGuarded)) ∧
      members.Perm ((b.members.map (Decl.tidyBody roots ending)).map
        (Decl.stripUnless b.membersGuarded)) ∧
      (b.reorganize roots).normalize ending = space ending { b with
        openTrailing := Span.stripUnless b.membersGuarded b.openTrailing
        imports := imports
        attributes := b.attributes.map (Decl.stripUnless b.membersGuarded)
        members := members
        closeLeading := Span.stripUnless b.membersGuarded b.closeLeading } := by
  have arranged := arrange_eq roots { b with members := b.members.map (Decl.mapBlocks (arrange roots)) }
  have membersPerm := sortUnless_perm b.membersGuarded Decl.memberLE
    ((b.members.map (Decl.mapBlocks (arrange roots))).map (Decl.stripUnless b.membersGuarded))
  rw [membersGuarded_mapBlocks] at arranged
  refine ⟨_, _, sortUnless_perm b.importsGuarded (Decl.importLE roots) _, ?_,
    by rw [normalize, mapBlocks_eq, reorganize, mapBlocks_eq, arranged]; rfl⟩
  have mapped := membersPerm.map (Decl.mapBlocks (space ending))
  simpa only [List.map_map, Function.comp_def, Decl.tidyBody, Decl.mapBlocks_stripUnless]
    using mapped

theorem tidied_of_bodies (roots : List String) (ending : String) (b : Block Decl)
    (bodies : List.Forall₂ Decl.BodyTidied b.members (b.members.map (Decl.tidyBody roots ending))) :
    Tidied b ((b.reorganize roots).normalize ending) := by
  obtain ⟨imports, members, importsPerm, membersPerm, tidied⟩ :=
    b.normalize_reorganize_eq roots ending
  obtain ⟨importsSpaced, attributesSpaced, membersSpaced⟩ := space_carried ending { b with
    openTrailing := Span.stripUnless b.membersGuarded b.openTrailing
    imports := imports
    attributes := b.attributes.map (Decl.stripUnless b.membersGuarded)
    members := members
    closeLeading := Span.stripUnless b.membersGuarded b.closeLeading }
  obtain ⟨oldImports, oldImportsPerm, importsCarried⟩ :=
    exists_perm_forall₂ (Decl.CarriedAll.map (.stripUnless b.membersGuarded) b.imports) importsPerm
  obtain ⟨inner, innerPerm, membersCarried⟩ :=
    exists_perm_forall₂ (Decl.CarriedAll.map (.stripUnless b.membersGuarded) _) membersPerm
  obtain ⟨oldMembers, oldMembersPerm, bodiesTidied⟩ := exists_perm_forall₂ bodies innerPerm
  rw [tidied]
  exact .intro rfl rfl
    ((Span.Carried.stripUnless _ _).trans (space_openTrailing ending _))
    ((Span.Carried.stripUnless _ _).trans (space_closeLeading ending _))
    oldImportsPerm (Decl.CarriedAll.trans importsCarried importsSpaced)
    ((Decl.CarriedAll.map (.stripUnless _) _).trans attributesSpaced)
    oldMembersPerm bodiesTidied (Decl.CarriedAll.trans membersCarried membersSpaced)

end Block

mutual

theorem Block.induction {P : Block Decl → Prop} (step : ∀ b : Block Decl,
    (∀ d ∈ b.decls, ∀ body, d.block = some body → P body) → P b) : (b : Block Decl) → P b
  | ⟨_, _, imports, attributes, members, _, _⟩ => by
    refine step _ ?_
    simp only [Block.decls, List.forall_mem_append]
    exact ⟨⟨Decl.induction_all step imports, Decl.induction_all step attributes⟩,
      Decl.induction_all step members⟩

theorem Decl.induction_body {P : Block Decl → Prop} (step : ∀ b : Block Decl,
    (∀ d ∈ b.decls, ∀ body, d.block = some body → P body) → P b) : (d : Decl) →
    ∀ body, d.block = some body → P body
  | ⟨_, _, _, _, _, none, _, _⟩, _, bodied => by cases bodied
  | ⟨_, _, _, _, _, some inner, _, _⟩, _, bodied => by
    cases bodied
    exact Block.induction step inner

theorem Decl.induction_all {P : Block Decl → Prop} (step : ∀ b : Block Decl,
    (∀ d ∈ b.decls, ∀ body, d.block = some body → P body) → P b) : (ds : List Decl) →
    ∀ d ∈ ds, ∀ body, d.block = some body → P body
  | [] => by simp
  | d :: rest => List.forall_mem_cons.mpr
      ⟨Decl.induction_body step d, Decl.induction_all step rest⟩

end

theorem Block.tidied (roots : List String) (ending : String) (b : Block Decl) :
    Block.Tidied b ((b.reorganize roots).normalize ending) := by
  induction b using Block.induction with
  | step b ih =>
    refine tidied_of_bodies roots ending b (List.forall₂_map_right_iff.mpr
      (List.forall₂_same.mpr fun d mem => ?_))
    obtain ⟨kind, visibility, key, leading, text, _ | body, trailing, lineIndent⟩ := d
    · exact .leaf rfl
    · exact .container rfl (ih _ (List.mem_append_right _ mem) body rfl)

/-- Tidying a tree loses, doubles and alters no declaration, and takes none from its comments. -/
theorem SourceFile.normalize_reorganize_tidied (roots : List String) (ending : String) (f : SourceFile) :
    SourceFile.Tidied f ((f.reorganize roots).normalize ending) where
  byteOrderMark := rfl
  header := Span.Carried.stripUnless f.root.membersGuarded f.header
  root := f.root.tidied roots ending

end CSharpTidy
