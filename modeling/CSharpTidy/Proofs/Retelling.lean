import CSharpTidy.Proofs.MovedDecls
import CSharpTidy.Proofs.OutlineRereading
import CSharpTidy.Proofs.TidyTwice
import CSharpTidy.Proofs.TreeCut

/- A tidied text that is read again. Its signs say where each declaration starts and which
   directives stand in front of it, so the blocks that are built from it are in order, as they were
   arranged. -/
namespace CSharpTidy

open CSharpTidy.Span PlacedToken Outline

theorem Span.hasGuardMarker_iff (span : Span) :
    span.hasGuardMarker = span.directives.any DirectiveKind.isGuardMarker := by
  rw [hasGuardMarker, directives, List.any_filterMap]
  refine congrArg (List.any span) (funext fun t => ?_)
  obtain ⟨kind, text⟩ := t
  cases kind <;> rfl

theorem Span.unmarked_iff (span : Span) :
    span.Unmarked ↔ ∀ kind ∈ span.directives, kind.isRegionMarker = false := by
  constructor
  · intro free kind mem
    obtain ⟨⟨k, text⟩, inside, found⟩ := List.mem_filterMap.mp mem
    have plain := free _ inside
    cases k <;> cases found
    exact plain
  · rintro free ⟨k, text⟩ mem
    cases k with
    | directive kind => exact free kind (List.mem_filterMap.mpr ⟨_, mem, rfl⟩)
    | _ => rfl

namespace PlacedToken

def led (t : PlacedToken) : Led :=
  (t.leading.directives, t.toLexeme)

variable {own : List PlacedToken}

theorem directives_trailingOf (undirected : ∀ t ∈ own, t.trailing.directives = []) :
    (trailingOf own).directives = [] := by
  unfold trailingOf
  split
  · rename_i t last
    exact undirected t (List.mem_of_getLast? last)
  · rfl

theorem signs_map_led {ts : List PlacedToken}
    (undirected : ∀ t ∈ ts, t.trailing.directives = []) :
    (ts.flatMap fun t => t.toToken.atoms).filterMap Atom.sign? = Led.signs (ts.map led) := by
  induction ts with
  | nil => rfl
  | cons t ts ih =>
    rw [List.forall_mem_cons] at undirected
    rw [List.flatMap_cons, List.filterMap_append, ih undirected.2, List.map_cons, Led.signs_cons,
      Token.atoms, List.filterMap_append, List.filterMap_cons, Atom.filterMap_sign,
      Atom.filterMap_sign, Span.signs, Span.signs, undirected.1]
    simp [led, Atom.sign?]

theorem leadingOf_led {ks : List DirectiveKind} {l : Lexeme} {ms : List Led}
    (h : own.map led = Led.lead ks (([], l) :: ms)) : (leadingOf own).directives = ks := by
  obtain ⟨t, rest, rfl, first, -⟩ := List.map_eq_cons_iff.mp h
  exact (congrArg Prod.fst first).trans (List.append_nil ks)

end PlacedToken

theorem List.map_take_cut {α β : Type} {f : α → β} {xs : List α} {n m : Nat} {as bs : List β}
    (h : (xs.take (n + m)).map f = as ++ bs) (counted : as.length = n) :
    (xs.take n).map f = as ∧ ((xs.drop n).take m).map f = bs := by
  have lengths := congrArg List.length h
  rw [List.take_add, List.map_append] at h
  refine List.append_inj h ?_
  simp only [List.length_map, List.length_take, List.length_append] at lengths ⊢
  omega

theorem Outline.Body.build_decls (b : Body Entry) (openTrailing : Span) (ts : List PlacedToken) :
    (b.build openTrailing ts).block.decls =
      (Entry.buildAll (b.imports ++ b.attributes ++ b.members) ts).1 := by
  obtain ⟨braced, imports, attributes, members, closing⟩ := b
  simp only [Body.build, Block.decls, Entry.buildAll_append, Entry.buildAll_rest,
    Entry.countAll_append, List.drop_drop]

namespace Item

def leds (i : Item) : List Led :=
  Led.lead i.decl.leading.directives i.own

/-- Wherever the lexemes of the declaration stand, its entry builds it again, with the directives
that stand in front of it there and with bodies that are arranged. -/
structure Told (roots : List String) (i : Item) : Prop where
  first : ∃ l ms, i.own = ([], l) :: ms
  counted : i.own.length = i.entry.count
  trailing : i.decl.trailing.directives = []
  built : ∀ {ts : List PlacedToken} {ks : List DirectiveKind},
    (∀ t ∈ ts, t.trailing.directives = []) →
    (ts.take i.entry.count).map led = Led.lead ks i.own →
    (i.entry.build ts).1.leading.directives = ks ∧ (i.entry.build ts).1.trailing.directives = [] ∧
      (i.entry.build ts).1.kind = i.decl.kind ∧
      (i.entry.build ts).1.visibility = i.decl.visibility ∧
      (i.entry.build ts).1.key = i.decl.key ∧
      ∀ body, (i.entry.build ts).1.block = some body → body.Arranged roots

variable {roots : List String} {ts opening closing : List PlacedToken} {ks : List DirectiveKind}
  {items : List Item} {i : Item}

theorem Told.nonempty (h : i.Told roots) : i.own ≠ [] := by
  obtain ⟨l, ms, first⟩ := h.first
  simp [first]

theorem Told.strip (h : i.Told roots) (pinned : Bool) : (i.strip pinned).Told roots := by
  refine ⟨h.first, h.counted, ?_, h.built⟩
  cases pinned with
  | true => exact h.trailing
  | false => simp [Item.strip, Decl.stripUnless, directives_stripRegions, h.trailing]

theorem Told.of_plain (unbodied : i.entry.body = none) {src : List PlacedToken}
    (own : i.own = ledOf src) (nonempty : src ≠ []) (size : src.length = i.entry.size)
    (kind : i.decl.kind = i.entry.kind) (visibility : i.decl.visibility = i.entry.visibility)
    (key : i.decl.key = i.entry.key) (trailing : i.decl.trailing.directives = []) :
    i.Told roots := by
  obtain ⟨l, ms, first⟩ := ledOf_first nonempty
  refine ⟨⟨l, ms, own.trans first⟩, ?_, trailing, fun {ts ks} undirected leds => ?_⟩
  · rw [own, length_ledOf, size, Entry.count_of_no_body unbodied]
  · rw [Entry.count_of_no_body unbodied, own, first] at leds
    rw [Entry.build_plain unbodied]
    exact ⟨leadingOf_led leds, directives_trailingOf fun t mem =>
      undirected t (List.mem_of_mem_take mem), kind.symm, visibility.symm, key.symm, by simp⟩

/-- What is built from the lexemes of a row that regions may stand in front of. -/
structure Rebuilt (roots : List String) (ks : List DirectiveKind) (items : List Item)
    (ds : List Decl) : Prop where
  ranks : ds.map Decl.rank = items.map fun i => i.decl.rank
  regions : (∀ kind ∈ ks, kind.isRegionMarker = false) → (∀ i ∈ items, i.decl.Unmarked) →
    ∀ d ∈ ds, d.Unmarked
  bodies : ∀ d ∈ ds, ∀ body, d.block = some body → body.Arranged roots

theorem Told.row (told : ∀ i ∈ items, i.Told roots)
    (undirected : ∀ t ∈ ts, t.trailing.directives = []) (free : ∀ kind ∈ ks, kind.isRegionMarker)
    (leds : (ts.take (Entry.countAll (items.map Item.entry))).map led =
      Led.lead ks (items.flatMap Item.leds)) :
    Rebuilt roots ks items (Entry.buildAll (items.map Item.entry) ts).1 := by
  induction items generalizing ts ks with
  | nil => exact ⟨rfl, by simp [Entry.buildAll], by simp [Entry.buildAll]⟩
  | cons i items ih =>
    rw [List.forall_mem_cons] at told
    obtain ⟨first, others⟩ := told
    rw [List.map_cons, Entry.countAll, List.flatMap_cons, Item.leds,
      Led.lead_append (by simpa [Led.lead] using first.nonempty), Led.lead_lead] at leds
    obtain ⟨front, back⟩ := List.map_take_cut leds (by simp [first.counted])
    obtain ⟨leading, trailing, kind, visibility, key, body⟩ := first.built undirected front
    have rest := ih others (fun t mem => undirected t (List.mem_of_mem_drop mem)) (by simp)
      (back.trans Led.lead_nil.symm)
    have unguarded : ks.any DirectiveKind.isGuardMarker = false :=
      List.any_eq_false.mpr fun kind mem => by simp [DirectiveKind.isGuardMarker, free kind mem]
    have guard : (i.entry.build ts).1.hasGuardMarker = i.decl.hasGuardMarker := by
      simp [Decl.hasGuardMarker, hasGuardMarker_iff, leading, trailing, first.trailing, unguarded]
    rw [List.map_cons, Entry.buildAll, Entry.build_rest]
    refine ⟨?_, fun unmarked clean => List.forall_mem_cons.mpr ⟨?_, ?_⟩,
      List.forall_mem_cons.mpr ⟨body, rest.bodies⟩⟩
    · simp only [List.map_cons, rest.ranks, Decl.rank, kind, visibility, key, guard]
    · have own := (clean i List.mem_cons_self).1
      rw [unmarked_iff] at own
      refine ⟨(unmarked_iff _).mpr ?_, (unmarked_iff _).mpr (by simp [trailing])⟩
      rw [leading]
      exact List.forall_mem_append.mpr ⟨unmarked, own⟩
    · exact rest.regions (by simp) fun j mem => clean j (List.mem_cons_of_mem i mem)

theorem Told.length_leds (told : ∀ i ∈ items, i.Told roots) :
    (items.flatMap Item.leds).length = Entry.countAll (items.map Item.entry) := by
  induction items with
  | nil => rfl
  | cons i items ih =>
    rw [List.forall_mem_cons] at told
    rw [List.flatMap_cons, List.length_append, ih told.2, Item.leds, Led.length_lead,
      told.1.counted]
    rfl

theorem Told.leds_ne_nil (told : ∀ i ∈ items, i.Told roots) (nonempty : items ≠ []) :
    items.flatMap Item.leds ≠ [] := by
  obtain ⟨i, items, rfl⟩ := List.exists_cons_of_ne_nil nonempty
  simpa [Item.leds, Led.lead] using fun none => absurd none (told i List.mem_cons_self).nonempty

theorem Told.signs_leds (told : ∀ i ∈ items, i.Told roots) :
    Led.signs (items.flatMap Item.leds) = items.flatMap Item.signs := by
  induction items with
  | nil => rfl
  | cons i items ih =>
    rw [List.forall_mem_cons] at told
    rw [List.flatMap_cons, List.flatMap_cons, Led.signs_append, ih told.2, Item.leds,
      Led.signs_lead told.1.nonempty]
    rfl

theorem out_of_body {span : Span} (told : ∀ i ∈ items, i.Told roots)
    (shut : closing = [] → span.directives = []) :
    Led.signs (ledOf opening ++ (items.flatMap leds ++ Led.lead span.directives (ledOf closing))) =
      signsOf opening ++ items.flatMap signs ++ (span.signs ++ signsOf closing) := by
  have close : Led.signs (Led.lead span.directives (ledOf closing)) =
      span.signs ++ signsOf closing := by
    by_cases none : closing = []
    · rw [none, Span.signs, shut none]
      rfl
    · obtain ⟨l, ms, first⟩ := ledOf_first none
      rw [Led.signs_lead (by simp [first]), signs_ledOf]
      rfl
  rw [Led.signs_append, Led.signs_append, Told.signs_leds told, signs_ledOf, close,
    List.append_assoc]

/-- The body that stands for a block in the text that it is arranged in. -/
def body (braced : Bool) (imports attributes members : List Item) (closing : Nat) : Body Entry :=
  ⟨braced, imports.map entry, attributes.map entry, members.map entry, closing⟩

variable {imports attributes members : List Item} {braced : Bool} {a : Block Decl}

theorem body_inner (n : Nat) : (body braced imports attributes members n).inner =
    Entry.countAll ((imports ++ attributes ++ members).map Item.entry) := by
  simp only [body, Body.inner, List.map_append, Entry.countAll_append]

/-- The declarations of a block in order are told of a body for it, with this text behind them. -/
structure Tells (roots : List String) (a : Block Decl) (imports attributes members : List Item) :
    Prop where
  told : ∀ i ∈ imports ++ attributes ++ members, i.Told roots
  sorted : a.InOrder roots
  imports : a.imports = imports.map Item.decl
  attributes : a.attributes = attributes.map Item.decl
  members : a.members = members.map Item.decl

theorem Tells.block (h : Tells roots a imports attributes members)
    (undirected : ∀ t ∈ ts, t.trailing.directives = []) (free : ∀ kind ∈ ks, kind.isRegionMarker)
    (stripped : a.membersGuarded = false → ∀ kind ∈ ks, kind.isRegionMarker = false) {n : Nat}
    (opening : Span)
    (leds : (ts.take (body braced imports attributes members n).inner).map led =
      Led.lead ks ((imports ++ attributes ++ members).flatMap Item.leds)) :
    let b := ((body braced imports attributes members n).build opening ts).block
    b.imports.map Decl.rank = a.imports.map Decl.rank ∧
      b.members.map Decl.rank = a.members.map Decl.rank ∧
      (a.membersGuarded = false → ∀ d ∈ b.decls, d.Unmarked) ∧
      ∀ d ∈ b.decls, ∀ body, d.block = some body → body.Arranged roots := by
  intro b
  rw [body_inner] at leds
  have rebuilt := Told.row h.told undirected free leds
  have decls : b.decls = (Entry.buildAll ((imports ++ attributes ++ members).map Item.entry)
      ts).1 := by
    rw [Body.build_decls, List.map_append, List.map_append]
    rfl
  rw [← decls] at rebuilt
  have ranks := rebuilt.ranks
  have lengths : ∀ es us, (Entry.buildAll es us).1.length = es.length := fun es us => by
    simpa using congrArg List.length (Entry.buildAll_kind es us)
  -- The three lists are as long as before, so the ranks of all are cut into theirs.
  simp only [Block.decls, List.map_append] at ranks
  obtain ⟨front, back⟩ := List.append_inj ranks (by simp [b, body, Body.build, lengths])
  obtain ⟨first, -⟩ := List.append_inj front (by simp [b, body, Body.build, lengths])
  refine ⟨?_, ?_, fun unguarded => rebuilt.regions (stripped unguarded) fun i mem =>
    (h.sorted.regions unguarded).2.1 i.decl ?_, rebuilt.bodies⟩
  · rw [first, h.imports, List.map_map]
    rfl
  · rw [back, h.members, List.map_map]
    rfl
  · rw [Block.decls, h.imports, h.attributes, h.members, ← List.map_append, ← List.map_append]
    exact List.mem_map_of_mem mem

theorem Tells.body {header : Entry} (h : Tells roots a imports attributes members)
    (entry : i.entry =
      { header with body := some (Item.body braced imports attributes members closing.length) })
    (own : i.own = ledOf opening ++ ((imports ++ attributes ++ members).flatMap Item.leds ++
      Led.lead a.closeLeading.directives (ledOf closing))) (nonempty : opening ≠ [])
    (size : opening.length = header.size) (kind : i.decl.kind = header.kind)
    (visibility : i.decl.visibility = header.visibility) (key : i.decl.key = header.key)
    (trailing : i.decl.trailing.directives = [])
    (shut : closing = [] → a.closeLeading.directives = []) : i.Told roots := by
  obtain ⟨l, ms, first⟩ := ledOf_first nonempty
  have count : i.entry.count = header.size +
      ((Item.body braced imports attributes members closing.length).inner + closing.length) := by
    rw [entry, Entry.count_with_body, Body.count_eq]
    rfl
  refine ⟨⟨l, _, by rw [own, first]; rfl⟩, ?_, trailing, ?_⟩
  · rw [own, count, List.length_append, List.length_append, Told.length_leds h.told, body_inner,
      Led.length_lead, length_ledOf, length_ledOf, size]
  intro ts ks undirected leds
  have within : ∀ {us : List PlacedToken}, us.Sublist ts → ∀ t ∈ us, t.trailing.directives = [] :=
    fun inside t mem => undirected t (inside.subset mem)
  -- The tokens of the opening, those of the declarations inside, and those that close.
  rw [own, count, Led.lead_append (by simp [first])] at leds
  obtain ⟨front, behind⟩ := List.map_take_cut leds (by simp [length_ledOf, size])
  obtain ⟨inside, last⟩ := List.map_take_cut behind (by rw [Told.length_leds h.told, body_inner])
  rw [first] at front
  obtain ⟨ranks, ranks', unmarked, bodies⟩ := h.block (within (List.drop_sublist ..))
    (by simp) (by simp) (trailingOf (ts.take header.size)) (inside.trans Led.lead_nil.symm)
  obtain ⟨closeLeading, -, closeTrailing⟩ :=
    (Item.body braced imports attributes members closing.length).build_close
      (trailingOf (ts.take header.size)) (ts.drop header.size)
  have final := within (((List.take_sublist closing.length _).trans (List.drop_sublist
    (Item.body braced imports attributes members closing.length).inner _)).trans
    (List.drop_sublist header.size _))
  have close : (leadingOf (((ts.drop header.size).drop (Item.body braced imports attributes members
      closing.length).inner).take closing.length)).directives = a.closeLeading.directives := by
    by_cases none : closing = []
    · simp only [none, List.length_nil, List.take_zero, shut none]
      rfl
    · obtain ⟨l, ms, first⟩ := ledOf_first none
      exact leadingOf_led (first ▸ last)
  rw [entry, Entry.build_container]
  refine ⟨leadingOf_led front, ?_, kind.symm, visibility.symm, key.symm, fun b block => ?_⟩
  · rw [closeTrailing]
    exact directives_trailingOf final
  · cases block
    refine .intro (h.sorted.of_ranks ranks ranks' ?_ fun free => ⟨?_, unmarked free, ?_⟩)
      fun d mem => bodies d (List.mem_append_right _ mem)
    · rw [closeLeading, hasGuardMarker_iff, hasGuardMarker_iff]
      exact congrArg (List.any · _) close
    · rw [SourceFile.build_openTrailing, unmarked_iff, directives_trailingOf (within
        (List.take_sublist ..))]
      simp
    · rw [closeLeading, unmarked_iff]
      exact close ▸ (unmarked_iff _).mp (h.sorted.regions free).2.2

end Item

end CSharpTidy
