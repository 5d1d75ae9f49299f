import CSharpTidy.Proofs.Ordering
import CSharpTidy.Proofs.PartPath

/- Declarations that change places. Each is read from some state, with directives in front of it and
   inside of it. A list that keeps its order is read as before; one that is sorted is read if every
   declaration in it may be moved, since all of them are then read in the same state. -/
namespace CSharpTidy

open CSharpTidy.Span CSharpTidy.Part

variable {span : Span} {c c' : Conditional} {fresh next : Bool} {o g : Gap}

namespace Gap

def Within (g h : Gap) : Prop :=
  g = .fresh ∨ g = h

theorem Within.fits {h : Gap} (within : g.Within h) (fits : h.Fits span) : g.Fits span := by
  obtain rfl | rfl := within
  · exact .inl rfl
  · exact fits

theorem Fits.stripUnless (h : g.Fits span) (pinned : Bool) : g.Fits (span.stripUnless pinned) := by
  cases pinned with
  | true => exact h
  | false =>
    exact h.imp_right fun inside => ⟨inside.1, fun t mem =>
      inside.2 t ((stripRegionsFrom_sublist [] false 0 span).subset mem)⟩

end Gap

/-- The directives of a span that a block owns. They are kept if the block is pinned, and all but
region markers are kept anyway. -/
def Span.markers (pinned : Bool) (span : Span) : List Marker :=
  span.directives.map fun kind => ⟨kind, pinned || !kind.isRegionMarker⟩

@[simp] theorem Span.map_kind_markers (pinned : Bool) (span : Span) :
    (span.markers pinned).map Marker.kind = span.directives := by
  simp [markers, Function.comp_def]

theorem Span.directives_filter (span : Span) (p : Trivia → Bool) (q : DirectiveKind → Bool)
    (h : ∀ t ∈ span, ∀ kind, t.directive? = some kind → p t = q kind) :
    directives (span.filter p) = span.directives.filter q := by
  induction span with
  | nil => rfl
  | cons t span ih =>
    rw [List.forall_mem_cons] at h
    have rest := ih h.2
    cases found : t.directive? with
    | none =>
      have skip : ∀ s : Span, directives (t :: s) = directives s := fun s => by
        simp [directives_cons, found]
      rw [skip, ← rest, List.filter_cons]
      split
      · exact skip _
      · rfl
    | some kind =>
      have take : ∀ s : Span, directives (t :: s) = kind :: directives s := fun s => by
        simp [directives_cons, found]
      rw [take, List.filter_cons, List.filter_cons, h.1 kind found, ← rest]
      split
      · exact take _
      · rfl

theorem Span.directives_solid (span : Span) : span.solid.directives = span.directives := by
  rw [solid, directives_filter span _ fun _ => true, List.filter_true]
  rintro ⟨k, text⟩ - kind found
  cases k <;> cases found
  rfl

theorem Span.directives_stripRegions (span : Span) :
    (stripRegions span).1.directives = span.directives.filter Flow.stays := by
  rw [← directives_solid, solid_stripRegions, unmarked, directives_filter span.solid _ Flow.stays,
    directives_solid]
  rintro ⟨k, text⟩ - kind found
  cases k <;> cases found
  rfl

theorem Span.left_markers (pinned : Bool) (span : Span) :
    Marker.left (span.markers pinned) = (span.stripUnless pinned).directives := by
  rw [Marker.left, markers, List.filter_map, List.map_map]
  have kinds : ∀ ks : List DirectiveKind,
      ks.map (Marker.kind ∘ fun kind => ⟨kind, pinned || !kind.isRegionMarker⟩) = ks := fun ks => by
    simp [Function.comp_def]
  rw [kinds]
  cases pinned with
  | true => exact List.filter_true _
  | false => exact (directives_stripRegions span).symm

theorem Span.Flow.inert_of_nil (h : Flow next fresh c span [] c') (active : c.isActive) :
    span.Inert := by
  generalize empty : ([] : List DirectiveKind) = ks at h
  have cons : ∀ {t : Trivia} {rest : Span}, t.directive? = none ∧ t.kind ≠ .disabled → Inert rest →
      Inert (t :: rest) := fun first rest => List.forall_mem_cons.mpr ⟨first, rest⟩
  induction h with
  | nil => exact fun _ mem => absurd mem (by simp)
  | @space _ _ _ t _ _ kind _ _ ih =>
    refine cons ?_ (ih active empty)
    simp only [Trivia.isWhitespace, beq_iff_eq] at kind
    simp [Trivia.directive?, kind]
  | @lineEnd _ _ _ t _ _ kind _ _ ih =>
    refine cons ?_ (ih active empty)
    simp only [Trivia.isEndOfLine, beq_iff_eq] at kind
    simp [Trivia.directive?, kind]
  | comment _ remark _ _ ih => exact cons remark.inert (ih active empty)
  | directive => cases empty
  | disabled _ _ inactive =>
    rw [inactive] at active
    cases active

theorem Span.isRegionMarker_of_free (free : span.hasGuardMarker = false) :
    ∀ kind ∈ span.directives, kind.isRegionMarker := by
  intro kind mem
  obtain ⟨⟨k, text⟩, inside, found⟩ := List.mem_filterMap.mp mem
  have plain := List.any_eq_false.mp free ⟨k, text⟩ inside
  cases k <;> cases found
  simpa [Trivia.isGuardMarker, DirectiveKind.isGuardMarker] using plain

theorem Span.Inert.undirected (h : span.Inert) : span.directives = [] :=
  List.filterMap_eq_nil_iff.mpr fun t mem => (h t mem).1

theorem Span.Flow.inert_stripRegions (h : Flow next fresh c span span.directives c')
    (active : c.isActive) (free : span.hasGuardMarker = false) :
    (Span.stripRegions span).1.Inert := by
  have none : span.directives.filter stays = [] := by
    rw [List.filter_eq_nil_iff]
    intro kind mem
    simp [stays, isRegionMarker_of_free free kind mem]
  have flow := h.stripRegions.1
  rw [none] at flow
  exact flow.inert_of_nil active

theorem Span.Flow.not_disabled (h : Flow next fresh c span span.directives c') (active : c.isActive)
    (free : span.hasGuardMarker = false) : ∀ t ∈ span, t.kind ≠ .disabled := by
  intro t mem dead
  have kept : t ∈ span.unmarked := by
    simp [unmarked, solid, mem, Trivia.isBlank, Trivia.isWhitespace, Trivia.isEndOfLine,
      Trivia.isRegionMarker, dead]
  rw [← solid_stripRegions] at kept
  exact (h.inert_stripRegions active free t (List.mem_of_mem_filter kept)).2 dead

def Decl.withLeading (d : Decl) (leading : Span) : Decl :=
  { d with leading := leading }

theorem Decl.withLeading_self (d : Decl) : d.withLeading d.leading = d := by
  cases d
  rfl

theorem Decl.memberParts_of_plain {d : Decl} (h : d.block = none) (packed lineStart : Bool) :
    d.memberParts packed lineStart =
      [d.part (if packed then .packed else d.kind.spacing) d.kind.endsLine lineStart] := by
  obtain ⟨kind, visibility, key, leading, text, block, trailing, lineIndent⟩ := d
  cases h
  simp [memberParts, Block.partsOption, part, Block.printOption]

/-- A declaration on its way through a tidied text: the entry that stands for it there, the state in
front of its leading trivia, in front of its text and behind it, the directives inside of it, the
lexemes of it and the directives that are left between them, and the gap that its trailing trivia
leave. -/
structure Item where
  decl : Decl
  entry : Outline.Entry
  front : Conditional
  mid : Conditional
  back : Conditional
  inside : List Marker
  own : List Led
  gap : Gap

namespace Item

def word (pinned : Bool) (i : Item) : List Marker :=
  i.decl.leading.markers pinned ++ i.inside

def out (i : Item) : List Sign :=
  Led.signs i.own

def signs (i : Item) : List Sign :=
  i.decl.leading.signs ++ i.out

def kinds (i : Item) : List DirectiveKind :=
  i.decl.leading.directives ++ Sign.directives i.out

def lexemes (i : Item) : List Lexeme :=
  i.own.map Prod.snd

theorem lexemes_flatMap (items : List Item) :
    Sign.lexemes (items.flatMap signs) = items.flatMap lexemes := by
  induction items with
  | nil => rfl
  | cons i items ih => simp [ih, signs, out, lexemes]

theorem directives_flatMap (items : List Item) :
    Sign.directives (items.flatMap signs) = items.flatMap kinds := by
  induction items with
  | nil => rfl
  | cons i items ih =>
    simp only [List.flatMap_cons, Sign.directives_append, ih, signs, kinds, directives_signs]

def outGap (i : Item) : Gap :=
  if i.decl.kind.endsLine then .fresh else i.gap

structure Sound (i : Item) : Prop where
  active : i.front.isActive
  leading : Flow false true i.front i.decl.leading i.decl.leading.directives i.mid
  indent : ∀ w, i.decl.lineIndent = some w → i.decl.leading = [] ∧ ∀ a ∈ w.toList, isSpace a
  unmarked : i.decl.trailing.Unmarked
  through : i.mid.Through (i.inside.map Marker.kind) i.back
  replaced : Replaces (Marker.left i.inside) (Sign.directives i.out)

structure Plain (i : Item) : Prop where
  block : i.decl.block = none
  text : Passes Atom.sign? i.mid i.decl.text.toList i.out i.back
  solid : ∃ front a, i.decl.text.toList = front ++ [a] ∧ Text.isBlank a = false
  trailing : i.gap.Behind i.back i.decl.trailing

def Moves (i : Item) : Prop :=
  ∀ (leading : Span) (c : Conditional) (g : Gap) (packed lineStart : Bool),
    Flow false true c leading leading.directives i.mid →
    (packed = false ∧ i.decl.kind.spacing = .spaced ∨ g.Fits leading) →
    (i.decl.lineIndent = none ∨ leading = []) →
    Chain g c ((i.decl.withLeading leading).memberParts packed lineStart)
      (leading.signs ++ i.out) i.outGap i.back

variable {i : Item}

theorem Plain.runs (h : i.Plain) {leading : Span} {c : Conditional}
    (flow : Flow false true c leading leading.directives i.mid)
    (indent : ∀ w, i.decl.lineIndent = some w → leading = [] ∧ ∀ a ∈ w.toList, isSpace a)
    (spacing : Spacing) (ends lineStart : Bool) :
    ((i.decl.withLeading leading).part spacing ends lineStart).Runs c i.mid i.back i.out := by
  refine ⟨flow, ?_, ?_, h.trailing.flow, fun w asked => indent w ?_⟩
  · simpa [Decl.part, Decl.withLeading, h.block, Block.printOption] using h.text
  · simpa [Decl.part, Decl.withLeading, h.block, Block.printOption] using h.solid
  · cases lineStart with
    | true => exact asked
    | false => cases asked

theorem Plain.leaves (h : i.Plain) (leading : Span) (spacing : Spacing) (ends lineStart : Bool) :
    ((i.decl.withLeading leading).part spacing ends lineStart).Leaves i.back
      (if ends then .fresh else i.gap) := by
  cases ends with
  | true => rfl
  | false => exact h.trailing

theorem Plain.moves (h : i.Plain) (sound : i.Sound) : i.Moves := by
  intro leading c g packed lineStart flow fits indent
  have block : (i.decl.withLeading leading).block = none := h.block
  have spaces : ∀ w, i.decl.lineIndent = some w → leading = [] ∧ ∀ a ∈ w.toList, isSpace a :=
    fun w asked => ⟨indent.resolve_left (by simp [asked]), (sound.indent w asked).2⟩
  rw [Decl.memberParts_of_plain block, ← List.append_nil (leading.signs ++ i.out)]
  refine .cons (h.runs flow spaces _ _ _) ?_ (h.leaves leading _ _ lineStart) (.nil _ _)
  obtain ⟨unpacked, spaced⟩ | fits := fits
  · exact .inl (by simp [Decl.part, Decl.withLeading, unpacked, spaced])
  · exact .inr fits

def strip (pinned : Bool) (i : Item) : Item :=
  { i with decl := i.decl.stripUnless pinned }

theorem strip_trailing (sound : i.Sound) (pinned : Bool) :
    (i.strip pinned).decl.trailing = i.decl.trailing := by
  cases pinned with
  | true => rfl
  | false => exact (stripRegions_eq_self_iff _).mpr sound.unmarked

theorem Sound.strip (h : i.Sound) (pinned : Bool) : (i.strip pinned).Sound := by
  cases pinned with
  | true => simpa [Item.strip] using h
  | false =>
    have trailing := strip_trailing h false
    refine ⟨h.active, ?_, fun w indent => ?_, ?_, h.through, h.replaced⟩
    · have flow := h.leading.stripRegions.1
      rwa [← directives_stripRegions] at flow
    · obtain ⟨empty, spaces⟩ := h.indent w indent
      refine ⟨?_, spaces⟩
      show (stripRegions i.decl.leading).1 = []
      rw [empty]
      rfl
    · rw [trailing]
      exact h.unmarked

theorem Plain.strip (h : i.Plain) (sound : i.Sound) (pinned : Bool) : (i.strip pinned).Plain := by
  refine ⟨h.block, h.text, h.solid, ?_⟩
  rw [strip_trailing sound]
  exact h.trailing

theorem Moves.strip (h : i.Moves) (sound : i.Sound) (pinned : Bool) : (i.strip pinned).Moves := by
  intro leading c g packed lineStart flow fits indent
  have same : (i.strip pinned).decl.withLeading leading = i.decl.withLeading leading := by
    have trailing := strip_trailing sound pinned
    simp only [Item.strip, Decl.stripUnless, Decl.withLeading] at trailing ⊢
    rw [trailing]
  rw [same]
  exact h leading c g packed lineStart flow fits indent

theorem replaces_strip (h : i.Sound) (pinned : Bool) :
    Replaces (Marker.left (i.word pinned)) (i.strip pinned).kinds := by
  rw [word, Marker.left_append, left_markers]
  exact (Replaces.refl _).append h.replaced

/-- Declarations that follow each other, as far as the states go. -/
inductive States : Conditional → List Item → Conditional → Prop
  | nil (c : Conditional) : States c [] c
  | cons {i : Item} {items : List Item} {c' : Conditional} (more : States i.back items c') :
      States i.front (i :: items) c'

inductive Row : Conditional → Gap → List Item → Conditional → Gap → Prop
  | nil (c : Conditional) (g : Gap) : Row c g [] c g
  | cons {i : Item} {items : List Item} {g g' : Gap} {c' : Conditional}
      (fits : g.Fits i.decl.leading) (more : Row i.back i.gap items c' g') :
      Row i.front g (i :: items) c' g'

inductive Line : Gap → Conditional → List Item → Gap → Conditional → Prop
  | nil (g : Gap) (c : Conditional) : Line g c [] g c
  | cons {i : Item} {items : List Item} {g g' : Gap} {c' : Conditional}
      (fits : i.decl.kind.spacing = .spaced ∨ g.Fits i.decl.leading)
      (more : Line i.outGap i.back items g' c') : Line g i.front (i :: items) g' c'

variable {c c' : Conditional} {g g' : Gap} {items items' : List Item}

theorem Row.states (h : Row c g items c' g') : States c items c' := by
  induction h with
  | nil => exact .nil _
  | cons _ _ ih => exact .cons ih

theorem Row.append {c₁ : Conditional} {g₁ : Gap} (h : Row c g items c₁ g₁)
    (h' : Row c₁ g₁ items' c' g') : Row c g (items ++ items') c' g' := by
  induction h with
  | nil => exact h'
  | cons fits _ ih => exact .cons fits (ih h')

theorem Row.split (h : Row c g (items ++ items') c' g') :
    ∃ c₁ g₁, Row c g items c₁ g₁ ∧ Row c₁ g₁ items' c' g' := by
  induction items generalizing c g with
  | nil => exact ⟨c, g, .nil c g, h⟩
  | cons i items ih =>
    cases h with
    | cons fits more =>
      obtain ⟨c₁, g₁, front, back⟩ := ih more
      exact ⟨c₁, g₁, .cons fits front, back⟩

theorem Row.strip (h : Row c g items c' g') (pinned : Bool) :
    Row c g (items.map (Item.strip pinned)) c' g' := by
  induction h with
  | nil => exact .nil _ _
  | @cons i items g g' c' fits _ ih =>
    exact .cons (i := i.strip pinned) (fits.stripUnless pinned) ih

theorem States.through (h : States c items c') (sound : ∀ i ∈ items, i.Sound) (pinned : Bool) :
    c.Through ((items.flatMap (word pinned)).map Marker.kind) c' := by
  induction h with
  | nil => exact .nil _
  | cons _ ih =>
    rw [List.forall_mem_cons] at sound
    rw [List.flatMap_cons, List.map_append, word, List.map_append, map_kind_markers]
    exact (sound.1.leading.through.append sound.1.through).append (ih sound.2)

theorem States.packedPath (h : States c items c') (sound : ∀ i ∈ items, i.Sound)
    (plain : ∀ i ∈ items, i.Plain) :
    Chain .fresh c ((items.map decl).map (Decl.part .packed true true)) (items.flatMap signs) .fresh
      c' := by
  induction h with
  | nil => exact .nil _ _
  | @cons i items c' _ ih =>
    rw [List.forall_mem_cons] at sound plain
    exact .cons (plain.1.runs sound.1.leading sound.1.indent .packed true true)
      (.inr (.inl rfl)) (plain.1.leaves _ .packed true true) (ih sound.2 plain.2)

theorem States.importPath (h : States c items c') (sound : ∀ i ∈ items, i.Sound)
    (plain : ∀ i ∈ items, i.Plain) (g : Gap) (lineStart : Bool) :
    Chain g c (Decl.importParts lineStart (items.map decl)) (items.flatMap signs)
      (if items.isEmpty then g else .fresh) c' := by
  cases h with
  | nil => exact .nil _ _
  | @cons i items c' more =>
    rw [List.forall_mem_cons] at sound plain
    exact .cons (plain.1.runs sound.1.leading sound.1.indent .spaced true lineStart) (.inl rfl)
      (plain.1.leaves _ .spaced true lineStart) (more.packedPath sound.2 plain.2)

theorem Row.attributePath (h : Row c g items c' g') (sound : ∀ i ∈ items, i.Sound)
    (plain : ∀ i ∈ items, i.Plain) (within : o.Within g) (lineStart : Bool) : ∃ o', o'.Within g' ∧
      Chain o c (Decl.attributeParts lineStart (items.map decl)) (items.flatMap signs) o' c' := by
  induction h generalizing o lineStart with
  | nil => exact ⟨o, within, .nil _ _⟩
  | @cons i items g g' c' fits more ih =>
    rw [List.forall_mem_cons] at sound plain
    obtain ⟨o', within', path⟩ := ih sound.2 plain.2 (.inr rfl) (Span.endsLine i.decl.trailing)
    exact ⟨o', within', .cons (plain.1.runs sound.1.leading sound.1.indent .free false lineStart)
      (.inr (within.fits fits)) (plain.1.leaves _ .free false lineStart) path⟩

theorem gap_of_outGap (i : Item) (h : i.outGap = .loose) : i.gap = .loose := by
  unfold outGap at h
  split at h
  · cases h
  · exact h

theorem outGap_within (i : Item) : i.outGap.Within i.gap := by
  unfold outGap
  split
  · exact .inl rfl
  · exact .inr rfl

theorem Row.line (h : Row c g items c' g') {o : Gap} (within : o.Within g) :
    ∃ o', o'.Within g' ∧ Line o c items o' c' := by
  induction h generalizing o with
  | nil => exact ⟨o, within, .nil _ _⟩
  | @cons i items g g' c' fits more ih =>
    obtain ⟨o', within', line⟩ := ih i.outGap_within
    exact ⟨o', within', .cons (.inr (within.fits fits)) line⟩

theorem Line.path (h : Line g c items g' c') (sound : ∀ i ∈ items, i.Sound)
    (moves : ∀ i ∈ items, i.Moves) (packed lineStart : Bool)
    (first : packed → ∀ i, items.head? = some i → g.Fits i.decl.leading) :
    Chain g c (Decl.memberPartsAll packed lineStart (items.map decl)) (items.flatMap signs) g'
      c' := by
  induction h generalizing packed lineStart with
  | nil => exact .nil _ _
  | @cons i items g g' c' fits more ih =>
    rw [List.forall_mem_cons] at sound moves
    rw [List.map_cons, Decl.memberPartsAll, List.flatMap_cons]
    have path : Chain g i.front (i.decl.memberParts packed lineStart) i.signs i.outGap i.back := by
      rw [← i.decl.withLeading_self]
      refine moves.1 i.decl.leading i.front g packed lineStart sound.1.leading ?_ ?_
      · cases packed with
        | true => exact .inr (first rfl i rfl)
        | false => exact fits.imp_left fun spaced => ⟨rfl, spaced⟩
      · cases indent : i.decl.lineIndent with
        | none => exact .inl rfl
        | some w => exact .inr (sound.1.indent w indent).1
    exact path.append (ih sound.2 moves.2 false _ (by simp))

theorem Sound.still (h : i.Sound) {pinned : Bool} (movable : Marker.movable (i.word pinned)) :
    i.back = i.front := by
  have through := h.leading.through.append h.through
  refine through.eq_of_selfContained ?_
  have contained := (Bool.and_eq_true_iff.mp movable).1
  rwa [word, List.map_append, map_kind_markers] at contained

theorem Row.still (h : Row c g items c' g') (still : ∀ i ∈ items, i.back = i.front) :
    c' = c ∧ ∀ i ∈ items, i.front = c ∧ i.back = c := by
  induction h with
  | nil => simp
  | @cons i items g g' c' fits more ih =>
    rw [List.forall_mem_cons] at still
    obtain ⟨rfl, rest⟩ := ih still.2
    rw [still.1] at rest ⊢
    exact ⟨rfl, List.forall_mem_cons.mpr ⟨⟨rfl, still.1⟩, rest⟩⟩

theorem States.of_still (still : ∀ i ∈ items, i.front = c ∧ i.back = c) : States c items c := by
  induction items with
  | nil => exact .nil c
  | cons i items ih =>
    rw [List.forall_mem_cons] at still
    obtain ⟨⟨rfl, back⟩, rest⟩ := still
    exact .cons (back ▸ ih rest)

end Item

/-- A list keeps its order, or every declaration in it may be moved. -/
def Decl.settled (pinned : Bool) (le : Decl → Decl → Bool) (ds : List Decl)
    (words : List (List Marker)) : Bool :=
  pinned || decide (ds.Pairwise fun d e => le d e) || words.all Marker.movable

namespace Item

/-- The list as it is tidied: without the region lines, and sorted if nothing pins it. -/
def sorted (pinned stays : Bool) (le : Decl → Decl → Bool) (items : List Item) : List Item :=
  sortUnless stays (fun i j => le i.decl j.decl) (items.map (Item.strip pinned))

variable {c c' : Conditional} {g g' : Gap} {items : List Item} {pinned stays : Bool}
  {le : Decl → Decl → Bool}

theorem map_decl_sorted (pinned stays : Bool) (le : Decl → Decl → Bool) (items : List Item) :
    (sorted pinned stays le items).map decl =
      sortUnless stays le ((items.map decl).map (Decl.stripUnless pinned)) := by
  have strip : (items.map decl).map (Decl.stripUnless pinned) =
      (items.map (Item.strip pinned)).map decl := by
    simp [Function.comp_def, Item.strip]
  rw [strip, sorted]
  cases stays with
  | true => rfl
  | false => exact List.map_mergeSort fun _ _ _ _ => rfl

theorem sorted_perm (pinned stays : Bool) (le : Decl → Decl → Bool) (items : List Item) :
    (sorted pinned stays le items).Perm (items.map (Item.strip pinned)) :=
  sortUnless_perm ..

theorem forall_sorted {P : Item → Prop} (h : ∀ i ∈ items, P (i.strip pinned)) :
    ∀ i ∈ sorted pinned stays le items, P i := by
  intro i mem
  obtain ⟨j, inside, rfl⟩ := List.mem_map.mp ((sorted_perm pinned stays le items).mem_iff.mp mem)
  exact h j inside

theorem sorted_cases (keeps : ∀ d e, le (Decl.stripUnless pinned d) (e.stripUnless pinned) = le d e)
    (h : Decl.settled stays le (items.map decl) (items.map (word pinned))) :
    sorted pinned stays le items = items.map (Item.strip pinned) ∨
      ∀ i ∈ items, Marker.movable (i.word pinned) := by
  simp only [Decl.settled, Bool.or_eq_true, decide_eq_true_eq, List.all_map, List.all_eq_true] at h
  obtain (rfl | inOrder) | movable := h
  · exact .inl rfl
  · refine .inl ?_
    rw [sorted, sortUnless]
    split
    · rfl
    · refine List.mergeSort_of_pairwise (List.pairwise_map.mpr ?_)
      exact (List.pairwise_map.mp inOrder).imp fun {i j} before =>
        (keeps i.decl j.decl).trans before
  · exact .inr movable

theorem replaces_strip_all (sound : ∀ i ∈ items, i.Sound) (pinned : Bool) :
    Replaces (Marker.left (items.flatMap (word pinned)))
      ((items.map (Item.strip pinned)).flatMap kinds) := by
  rw [Marker.left_flatMap, List.flatMap_map]
  exact Replaces.flatMap fun i mem => replaces_strip (sound i mem) pinned

theorem Row.sorted_states (h : Row c g items c' g') (sound : ∀ i ∈ items, i.Sound)
    (keeps : ∀ d e, le (Decl.stripUnless pinned d) (e.stripUnless pinned) = le d e)
    (settled : Decl.settled stays le (items.map decl) (items.map (word pinned))) :
    States c (sorted pinned stays le items) c' ∧
      Replaces (Marker.left (items.flatMap (word pinned)))
        ((sorted pinned stays le items).flatMap kinds) := by
  have unmoved := replaces_strip_all sound pinned
  obtain same | movable := sorted_cases keeps settled
  · rw [same]
    exact ⟨(h.strip pinned).states, unmoved⟩
  · have moved := sorted_perm pinned stays le items
    have inRow := h.still fun i mem => (sound i mem).still (movable i mem)
    obtain ⟨rfl, still⟩ := inRow
    refine ⟨.of_still fun i mem => ?_, unmoved.trans (Rises.perm moved.symm fun i mem => ?_)⟩
    · obtain ⟨j, inside, rfl⟩ := List.mem_map.mp (moved.mem_iff.mp mem)
      exact still j inside
    · obtain ⟨j, inside, rfl⟩ := List.mem_map.mp mem
      exact (Marker.rises_of_movable (movable j inside)).replaced
        (replaces_strip (sound j inside) pinned)

theorem Line.of_still (still : ∀ i ∈ items, i.front = c ∧ i.back = c)
    (inert : ∀ i ∈ items, i.decl.leading.Inert)
    (spaced : items.Pairwise fun i j => i.outGap = .loose → j.decl.kind.spacing = .spaced)
    (enter : o = .loose → ∀ i ∈ items, i.decl.kind.spacing = .spaced) :
    ∃ o', Line o c items o' c ∧ (o' = .loose → o = .loose ∨ ∃ i ∈ items, i.outGap = .loose) := by
  induction items generalizing o with
  | nil => exact ⟨o, .nil o c, .inl⟩
  | cons i items ih =>
    rw [List.forall_mem_cons] at still inert
    rw [List.pairwise_cons] at spaced
    obtain ⟨⟨rfl, back⟩, rest⟩ := still
    obtain ⟨o', line, last⟩ := ih rest inert.2 spaced.2 (o := i.outGap) fun loose j mem =>
      spaced.1 j mem loose
    refine ⟨o', .cons ?_ (back ▸ line), fun loose => ?_⟩
    · cases o with
      | fresh => exact .inr (.inl rfl)
      | tight => exact .inr (.inr ⟨rfl, inert.1⟩)
      | loose => exact .inl (enter rfl i (by simp))
    · obtain here | ⟨j, mem, later⟩ := last loose
      · exact .inr ⟨i, by simp, here⟩
      · exact .inr ⟨j, by simp [mem], later⟩

theorem Row.loose_last {front back : List Item} {i : Item}
    (h : Row c g (front ++ i :: back) c' g') (loose : i.gap = .loose) :
    back = [] ∧ g' = .loose := by
  obtain ⟨c₁, g₁, -, rest⟩ := h.split
  cases rest with
  | cons fits more =>
    rw [loose] at more
    generalize i.back = state at more
    cases more with
    | nil => exact ⟨rfl, rfl⟩
    | cons fits' => exact absurd fits' (Gap.not_fits_loose _)

/-- Behind a declaration that does not end its line comes one that starts a new line: the last one
of a source has only enums sorted behind it. -/
theorem Row.sorted_spaced (h : Row c g items c' g') (pinned : Bool) :
    (sorted pinned false Decl.memberLE items).Pairwise fun i j =>
      i.outGap = .loose → j.decl.kind.spacing = .spaced := by
  let le := fun i j : Item => Decl.memberLE i.decl j.decl
  have trans : ∀ i j k : Item, le i j → le j k → le i k := fun i j k =>
    le_trans_of_compared Decl.memberLE_eq i.decl j.decl k.decl
  have total : ∀ i j : Item, le i j || le j i := fun i j =>
    le_total_of_compared Decl.memberLE_eq i.decl j.decl
  let other := fun i : Item => i.decl.category == .others
  have together : ∀ i j, other i → other j → le i j := by
    intro i j left right
    simp only [other, beq_iff_eq] at left right
    simp [le, Decl.memberLE, Decl.comparePolicy, Decl.compareMember, left, right]
  rw [sorted, sortUnless, if_neg (by simp), List.pairwise_iff_forall_sublist]
  intro i j pair loose
  obtain ⟨unended, last⟩ : i.decl.kind.endsLine = false ∧ i.gap = .loose := by
    unfold outGap at loose
    split at loose
    · cases loose
    · exact ⟨by simp_all, loose⟩
  have isOther : i.decl.category = .others := by
    unfold Decl.category
    cases kind : i.decl.kind <;> simp_all [DeclKind.endsLine, Category.ofKind]
  have before : le i j :=
    List.pairwise_iff_forall_sublist.mp (List.pairwise_mergeSort trans total _) pair
  by_cases same : other j
  · -- both keep the order of the source, where nothing stands behind the first of them
    have kept := pair.filter other
    rw [filter_mergeSort trans total together] at kept
    have both : [i, j].filter other = [i, j] := by simp [other, isOther, same]
    rw [both] at kept
    obtain ⟨front, back, whole, mem, behind⟩ :=
      List.cons_sublist_iff.mp (kept.trans List.filter_sublist)
    obtain ⟨before, between, rfl⟩ := List.append_of_mem mem
    have row := h.strip pinned
    rw [whole, List.append_assoc, List.cons_append] at row
    obtain ⟨none, -⟩ := row.loose_last last
    rw [(List.append_eq_nil_iff.mp none).2] at behind
    cases behind
  · simp only [other, beq_iff_eq] at same
    simp only [le, Decl.memberLE, Decl.comparePolicy, isOther] at before
    unfold Decl.category at before same
    cases kind : j.decl.kind with
    | field =>
      rw [kind] at before
      cases before
    | imported | other => exact absurd (by rw [kind]; rfl) same
    | _ => rfl

theorem Row.behind_sorted (h : Row c g items c' g') (pinned stays : Bool) (le : Decl → Decl → Bool)
    (within : o.Within g) :
    (if (sorted pinned stays le items).isEmpty then o else Gap.fresh).Within g' := by
  cases none : (sorted pinned stays le items).isEmpty with
  | false => exact .inl rfl
  | true =>
    have empty := (sorted_perm pinned stays le items).symm
    rw [List.isEmpty_iff.mp none, List.perm_nil, List.map_eq_nil_iff] at empty
    subst empty
    cases h
    exact within

theorem Row.sorted_line (h : Row c g items c' g') (sound : ∀ i ∈ items, i.Sound)
    (settled : Decl.settled pinned Decl.memberLE (items.map decl) (items.map (word pinned)))
    (free : pinned = false → ∀ i ∈ items, i.decl.leading.hasGuardMarker = false)
    (within : o.Within g) : ∃ o', Line o c (sorted pinned pinned Decl.memberLE items) o' c' ∧
      (∀ i, (sorted pinned pinned Decl.memberLE items).head? = some i → o.Fits i.decl.leading) ∧
      (o'.Within g' ∨ pinned = false ∧ (o' = .loose → g' = .loose)) := by
  have unmoved : sorted pinned pinned Decl.memberLE items = items.map (Item.strip pinned) →
      ∃ o', Line o c (sorted pinned pinned Decl.memberLE items) o' c' ∧
        (∀ i, (sorted pinned pinned Decl.memberLE items).head? = some i → o.Fits i.decl.leading) ∧
        (o'.Within g' ∨ pinned = false ∧ (o' = .loose → g' = .loose)) := by
    intro same
    have row := h.strip pinned
    rw [same]
    obtain ⟨o', within', line⟩ := row.line within
    refine ⟨o', line, fun i first => ?_, .inl within'⟩
    cases items with
    | nil => cases first
    | cons j items =>
      cases row with
      | cons fits more =>
        obtain rfl : j.strip pinned = i := by simpa using first
        exact within.fits fits
  cases pinned with
  | true => exact unmoved rfl
  | false =>
    obtain same | movable := sorted_cases
      (fun _ _ => Decl.memberLE_congr ⟨rfl, rfl, rfl⟩ ⟨rfl, rfl, rfl⟩) settled
    · exact unmoved same
    by_cases none : items = []
    · subst none
      exact unmoved (by simp [sorted, sortUnless])
    have moved := sorted_perm false false Decl.memberLE items
    obtain ⟨rfl, still⟩ := h.still fun i mem => (sound i mem).still (movable i mem)
    have inert : ∀ i ∈ sorted false false Decl.memberLE items, i.decl.leading.Inert := by
      intro i mem
      obtain ⟨j, inside, rfl⟩ := List.mem_map.mp (moved.mem_iff.mp mem)
      exact (sound j inside).leading.inert_stripRegions (sound j inside).active (free rfl j inside)
    have inLine : o ≠ .loose := by
      rintro rfl
      obtain rfl := within.resolve_left (by simp)
      cases h with
      | nil => exact none rfl
      | cons fits => exact Gap.not_fits_loose _ fits
    have one : ∀ i ∈ sorted false false Decl.memberLE items, i.front = c' ∧ i.back = c' := by
      intro i mem
      obtain ⟨j, inside, rfl⟩ := List.mem_map.mp (moved.mem_iff.mp mem)
      exact still j inside
    obtain ⟨o', line, last⟩ := Line.of_still one inert (h.sorted_spaced false) fun loose =>
      absurd loose inLine
    refine ⟨o', line, fun i first => ?_, .inr ⟨rfl, fun loose => ?_⟩⟩
    · have inside := inert i (List.mem_of_mem_head? first)
      cases o with
      | fresh => exact .inl rfl
      | tight => exact .inr ⟨rfl, inside⟩
      | loose => exact absurd rfl inLine
    · obtain ⟨i, mem, ends⟩ := (last loose).resolve_left inLine
      obtain ⟨j, inside, rfl⟩ := List.mem_map.mp (moved.mem_iff.mp mem)
      obtain ⟨front, back, rfl⟩ := List.append_of_mem inside
      exact (h.loose_last (j.gap_of_outGap ends)).2

end Item

namespace Block

theorem parts_eq (b : Block Decl) :
    b.parts = Decl.importParts b.startsLine b.imports ++
      Decl.attributeParts (!b.imports.isEmpty || b.startsLine) b.attributes ++
      Decl.memberPartsAll (b.braced && b.imports.isEmpty && b.attributes.isEmpty)
        (Decl.lineStartAfter (!b.imports.isEmpty || b.startsLine) b.attributes) b.members := by
  cases b
  rfl

structure Rows (b : Block Decl) (c : Conditional) (g : Gap) (imports attributes members : List Item)
    (c' : Conditional) (g' : Gap) : Prop where
  importDecls : imports.map Item.decl = b.imports
  attributeDecls : attributes.map Item.decl = b.attributes
  memberDecls : members.map Item.decl = b.members
  row : Item.Row c g (imports ++ attributes ++ members) c' g'
  sound : ∀ i ∈ imports ++ attributes ++ members, i.Sound
  plain : ∀ i ∈ imports ++ attributes, i.Plain
  moves : ∀ i ∈ members, i.Moves

structure Closing (b : Block Decl) (c : Conditional) (g : Gap) : Prop where
  active : c.isActive
  leading : ∃ next c', Flow next true c b.closeLeading b.closeLeading.directives c'
  meets : g = .loose ∨ g.Fits b.closeLeading

/-- Behind the members of a block the text goes on as before, or nothing but blanks and comments
is left of what goes on. -/
theorem Closing.strip {b : Block Decl} (h : b.Closing c g)
    (behind : o.Within g ∨ b.membersGuarded = false ∧ (o = .loose → g = .loose)) :
    (o = .loose → g = .loose) ∧
      (o = .loose ∨ o.Fits (Span.stripUnless b.membersGuarded b.closeLeading)) := by
  obtain within | ⟨free, last⟩ := behind
  · refine ⟨fun loose => (within.resolve_left (by simp [loose])).symm.trans loose, ?_⟩
    obtain rfl | rfl := within
    · exact .inr (.inl rfl)
    · exact h.meets.imp_right fun fits => fits.stripUnless _
  · refine ⟨last, ?_⟩
    have plain : b.closeLeading.hasGuardMarker = false := by
      simp only [membersGuarded, Bool.or_eq_false_iff] at free
      exact free.2
    obtain ⟨next, c', flow⟩ := h.leading
    have inert := flow.inert_stripRegions h.active plain
    rw [free]
    cases o with
    | fresh => exact .inr (.inl rfl)
    | tight => exact .inr (.inr ⟨rfl, inert⟩)
    | loose => exact .inl rfl

namespace Rows

variable {b : Block Decl} {c c' : Conditional} {g g' : Gap} {imports attributes members : List Item}

theorem unguarded (h : b.Rows c g imports attributes members c' g')
    (free : b.membersGuarded = false) : ∀ i ∈ members, i.decl.leading.hasGuardMarker = false := by
  intro i mem
  have inside : i.decl ∈ b.members := h.memberDecls ▸ List.mem_map_of_mem mem
  simp only [membersGuarded, Bool.or_eq_false_iff, List.any_eq_false] at free
  have unmarked := free.1 i.decl inside
  simp only [Decl.hasGuardMarker, Bool.or_eq_true, not_or, Bool.not_eq_true] at unmarked
  exact unmarked.2.1

theorem arrange_eq (h : b.Rows c g imports attributes members c' g') (roots : List String) :
    b.arrange roots = { b with
      openTrailing := Span.stripUnless b.membersGuarded b.openTrailing
      imports := (Item.sorted b.membersGuarded b.importsGuarded (Decl.importLE roots)
        imports).map Item.decl
      attributes := (attributes.map (Item.strip b.membersGuarded)).map Item.decl
      members := (Item.sorted b.membersGuarded b.membersGuarded Decl.memberLE
        members).map Item.decl
      closeLeading := Span.stripUnless b.membersGuarded b.closeLeading } := by
  rw [Block.arrange_eq, Item.map_decl_sorted, Item.map_decl_sorted, h.importDecls, h.memberDecls,
    ← h.attributeDecls]
  simp [Function.comp_def, Item.strip]

/-- The declarations of a block as they are arranged. -/
def order (roots : List String) (pinned stays : Bool) (imports attributes members : List Item) :
    List Item :=
  Item.sorted pinned stays (Decl.importLE roots) imports ++ attributes.map (Item.strip pinned) ++
    Item.sorted pinned pinned Decl.memberLE members

/-- A block whose lists are settled is read again once it is arranged. -/
theorem arrange (h : b.Rows c g imports attributes members c' g') (closing : b.Closing c' g')
    (roots : List String)
    (settledImports : Decl.settled b.importsGuarded (Decl.importLE roots) b.imports
      (imports.map (Item.word b.membersGuarded)))
    (settledMembers : Decl.settled b.membersGuarded Decl.memberLE b.members
      (members.map (Item.word b.membersGuarded))) (within : o.Within g) :
    ∃ o', Chain o c (b.arrange roots).parts
        ((order roots b.membersGuarded b.importsGuarded imports attributes members).flatMap
          Item.signs) o' c' ∧
      (o' = .loose → g' = .loose) ∧ (o' = .loose ∨ o'.Fits (b.arrange roots).closeLeading) ∧
      Replaces (Marker.left ((imports ++ attributes ++ members).flatMap
        (Item.word b.membersGuarded)))
        ((order roots b.membersGuarded b.importsGuarded imports attributes members).flatMap
          Item.kinds) := by
  obtain ⟨c₂, g₂, front, memberRow⟩ := h.row.split
  obtain ⟨c₁, g₁, importRow, attributeRow⟩ := front.split
  have sound := h.sound
  have plain := h.plain
  simp only [List.forall_mem_append] at sound plain
  obtain ⟨⟨soundImports, soundAttributes⟩, soundMembers⟩ := sound
  rw [← h.importDecls] at settledImports
  rw [← h.memberDecls] at settledMembers
  obtain ⟨importStates, importWords⟩ := importRow.sorted_states soundImports
    (fun _ _ => Decl.importLE_congr roots ⟨rfl, rfl⟩ ⟨rfl, rfl⟩) settledImports
  have memberWords := (memberRow.sorted_states soundMembers
    (fun _ _ => Decl.memberLE_congr ⟨rfl, rfl, rfl⟩ ⟨rfl, rfl, rfl⟩) settledMembers).2
  have attributeWords := Item.replaces_strip_all soundAttributes b.membersGuarded
  -- Each of the three lists is a path of its own, and the gaps between them join the paths.
  have importChain := importStates.importPath
    (Item.forall_sorted fun i mem => (soundImports i mem).strip b.membersGuarded)
    (Item.forall_sorted fun i mem => (plain.1 i mem).strip (soundImports i mem) b.membersGuarded) o
    (b.arrange roots).startsLine
  obtain ⟨o₂, within₂, attributeChain⟩ := (attributeRow.strip b.membersGuarded).attributePath
    (List.forall_mem_map.mpr fun i mem => (soundAttributes i mem).strip b.membersGuarded)
    (List.forall_mem_map.mpr fun i mem =>
      (plain.2 i mem).strip (soundAttributes i mem) b.membersGuarded)
    (importRow.behind_sorted _ _ _ within)
    (!(b.arrange roots).imports.isEmpty || (b.arrange roots).startsLine)
  obtain ⟨o', line, first, behind⟩ :=
    memberRow.sorted_line soundMembers settledMembers h.unguarded within₂
  have memberChain := line.path
    (Item.forall_sorted fun i mem => (soundMembers i mem).strip b.membersGuarded)
    (Item.forall_sorted fun i mem => (h.moves i mem).strip (soundMembers i mem) b.membersGuarded)
    ((b.arrange roots).braced && (b.arrange roots).imports.isEmpty &&
      (b.arrange roots).attributes.isEmpty)
    (Decl.lineStartAfter (!(b.arrange roots).imports.isEmpty || (b.arrange roots).startsLine)
      (b.arrange roots).attributes) fun _ => first
  obtain ⟨last, meets⟩ := closing.strip behind
  have words := (importWords.append attributeWords).append memberWords
  simp only [← Marker.left_append, ← List.flatMap_append] at words
  refine ⟨o', ?_, last, ?_, words⟩
  · have chain := (importChain.append attributeChain).append memberChain
    rw [parts_eq, order, List.flatMap_append, List.flatMap_append]
    simp only [h.arrange_eq roots] at chain ⊢
    exact chain
  · rw [h.arrange_eq roots]
    exact meets

end Rows

end Block

end CSharpTidy
