import CSharpTidy.Proofs.SourceRows

/- The front of a text. The header is whole lines that stay where they are, while the declaration
   behind them may be moved; and the blanks in front of all may be cut off. -/
namespace CSharpTidy

open CSharpTidy.Span CSharpTidy.Part PlacedToken

variable {c c' : Conditional} {roots : List String} {white : Span} {p q : Place}

theorem Place.after_void {v : List Char} (void : ∀ a ∈ v, isVoid a) (h : p ≠ .inside) :
    p.after v ≠ .inside := by
  induction v generalizing p with
  | nil => exact h
  | cons a v ih =>
    rw [List.forall_mem_cons] at void
    refine ih void.2 ?_
    have blank := void.1
    simp only [isVoid, Bool.or_eq_true] at blank
    unfold next
    cases breaks : isLineBreak a with
    | true => simp
    | false =>
      have space : isSpace a := by simpa [breaks] using blank
      cases p with
      | start => cases Text.isBlank a <;> simp [space]
      | masked => simp [space]
      | inside => exact absurd rfl h

/-- In live code the blanks that a line starts with make no difference to what is read next. -/
theorem Reader.step_reopen (active : c.isActive) (hp : p ≠ .inside) (hq : q ≠ .inside) (a : Char)
    (s : List Char) : Reader.step ⟨q, c⟩ a s = Reader.step ⟨p, c⟩ a s ∨
      Reader.step ⟨p, c⟩ a s = some (Reader.pass ⟨p, c⟩ a s) ∧
        Reader.step ⟨q, c⟩ a s = some (Reader.pass ⟨q, c⟩ a s) ∧
        p.next a ≠ .inside ∧ q.next a ≠ .inside := by
  cases void : isVoid a with
  | true =>
    have passes : ∀ p : Place, Reader.step ⟨p, c⟩ a s = some (Reader.pass ⟨p, c⟩ a s) :=
      fun p => by simp [Reader.step, Reader.live, active, void]
    have next : ∀ {p : Place}, p ≠ .inside → p.next a ≠ .inside := fun {p} h =>
      Place.after_void (v := [a]) (by simpa using void) h
    exact .inr ⟨passes p, passes q, next hp, next hq⟩
  | false =>
    exact .inl (by simp [Reader.step, Reader.live, active, void, hp, hq, Reader.directive])

theorem Reads.reopen (active : c.isActive) (hp : p ≠ .inside) (hq : q ≠ .inside) {s : List Char}
    {as : List Atom} (h : Reads ⟨p, c⟩ s as) : Reads ⟨q, c⟩ s as := by
  induction s generalizing p q as with
  | nil =>
    cases h with
    | done closed => exact .done closed
  | cons a s ih =>
    cases h with
    | cons first more =>
      obtain same | ⟨passes, passes', hp', hq'⟩ := Reader.step_reopen active hp hq a s
      · exact .cons (same.trans first) more
      · rw [passes] at first
        cases first
        exact .cons (p := Reader.pass ⟨q, c⟩ a s) passes' (ih hp' hq' more)

namespace Finishes

variable {α : Type} {note : Atom → Option α} {c : Conditional} {v s : List Char} {ns : List α}

theorem void_append_iff (active : c.isActive) (void : ∀ a ∈ v, isVoid a) :
    Finishes note ⟨.start, c⟩ (v ++ s) ns ↔ Finishes note ⟨.start, c⟩ s ns := by
  have steps := Steps.void active void .start s
  have placed := Place.after_void void (p := .start) (by simp)
  constructor
  · rintro ⟨as, reads, found⟩
    obtain ⟨rest, whole, reads⟩ := reads.of_steps steps
    rw [whole] at found
    exact ⟨rest, reads.reopen active placed (by simp), found⟩
  · rintro ⟨as, reads, found⟩
    exact ⟨[] ++ as, steps.reads (reads.reopen active (by simp) placed), found⟩

end Finishes

theorem Span.White.directives (h : White white) : Span.directives white = [] := by
  refine List.filterMap_eq_nil_iff.mpr fun t mem => ?_
  have kind := (h t mem).1
  simp only [Trivia.isWhitespace, beq_iff_eq] at kind
  simp [Trivia.directive?, kind]

theorem Span.White.not_endsLine (h : White white) : endsLine white = false := by
  unfold endsLine
  cases last : white.getLast? with
  | none => rfl
  | some t =>
    have solid := (Trivia.kind_of_isWhitespace (h t (List.mem_of_getLast? last)).1).1
    simp [solid]

theorem Span.White.cut {rest a b : Span} {t : Trivia} (h : White white)
    (whole : white ++ t :: rest = a ++ b) (line : a.endsLine) (solid : t.isEndOfLine = false) :
    ∃ a', a = white ++ t :: a' ∧ rest = a' ++ b ∧ endsLine a' := by
  obtain ⟨x, rfl, cut⟩ | ⟨x, rfl, cut⟩ := List.append_eq_append_iff.mp whole
  · cases x with
    | nil => exact absurd line (by simp [h.not_endsLine])
    | cons u a' =>
      obtain ⟨rfl, rfl⟩ := List.cons.inj cut
      exact ⟨a', rfl, rfl, endsLine_behind solid white line⟩
  · have front : White a := fun u mem => h u (by simp [mem])
    exact absurd line (by simp [front.not_endsLine])

namespace Span.Flow

variable {next fresh : Bool} {c c' : Conditional} {span : Span} {ks : List DirectiveKind}

theorem eq_directives (h : Flow next fresh c span ks c') : ks = span.directives := by
  induction h with
  | nil => rfl
  | space kind _ _ ih =>
    simp only [Trivia.isWhitespace, beq_iff_eq] at kind
    simp [directives_cons, Trivia.directive?, kind, ih]
  | lineEnd kind _ _ ih =>
    simp only [Trivia.isEndOfLine, beq_iff_eq] at kind
    simp [directives_cons, Trivia.directive?, kind, ih]
  | comment _ remark _ _ ih => simp [directives_cons, remark.inert.1, ih]
  | directive indent line _ _ _ _ ih =>
    simp [directives_cons, indent.directives, Trivia.directive?, line.kind, ih]
  | disabled indent _ _ dead _ ih =>
    simp [directives_cons, indent.directives, Trivia.directive?, dead.kind, ih]

theorem split {a b : Span} (h : Flow next fresh c (a ++ b) ks c') (line : a.endsLine) :
    ∃ c₁ ks₁ ks₂, Flow false fresh c a ks₁ c₁ ∧ Flow next true c₁ b ks₂ c' := by
  have behind : ∀ {a' : Span}, a'.endsLine → Breaks next (a' ++ b) → Breaks false a' := by
    intro a' ends breaks
    cases a' with
    | nil => cases ends
    | cons t a' => exact breaks
  have none : White [] := by simp [White]
  generalize whole : a ++ b = span at h
  induction h generalizing a with
  | nil =>
    obtain ⟨rfl, -⟩ := List.append_eq_nil_iff.mp whole
    cases line
  | @space fresh c c' t rest ks kind spaces more ih =>
    have solid := (Trivia.kind_of_isWhitespace kind).1
    obtain ⟨a', rfl, cut, ends⟩ := none.cut whole.symm line solid
    obtain ⟨c₁, ks₁, ks₂, front, back⟩ := ih ends cut.symm
    exact ⟨c₁, ks₁, ks₂, .space kind spaces front, back⟩
  | @lineEnd fresh c c' t rest ks kind breaks more ih =>
    cases a with
    | nil => cases line
    | cons u a' =>
      obtain ⟨rfl, rfl⟩ := List.cons.inj whole
      by_cases empty : a' = []
      · subst empty
        exact ⟨c, [], ks, .lineEnd kind breaks (.nil _ _), more⟩
      · have ends : Span.endsLine a' := by
          rw [endsLine_cons] at line
          simpa [empty] using line
        obtain ⟨c₁, ks₁, ks₂, front, back⟩ := ih ends rfl
        exact ⟨c₁, ks₁, ks₂, .lineEnd kind breaks front, back⟩
  | comment active remark breaks _ ih =>
    obtain ⟨a', rfl, rfl, ends⟩ := none.cut whole.symm line remark.solid.2.1
    obtain ⟨c₁, ks₁, ks₂, front, back⟩ := ih ends rfl
    exact ⟨c₁, ks₁, ks₂, .comment active remark (fun runsOn => behind ends (breaks runsOn)) front,
      back⟩
  | directive indent text breaks counts applied _ ih =>
    obtain ⟨a', rfl, rfl, ends⟩ := indent.cut whole.symm line
      (by simp [Trivia.isEndOfLine, text.kind])
    obtain ⟨c₁, ks₁, ks₂, front, back⟩ := ih ends rfl
    exact ⟨c₁, _, ks₂, .directive indent text (behind ends breaks) counts applied front, back⟩
  | disabled indent starts inactive dead _ ih =>
    obtain ⟨a', rfl, rfl, ends⟩ := indent.cut whole.symm line
      (by simp [Trivia.isEndOfLine, dead.kind])
    obtain ⟨c₁, ks₁, ks₂, front, back⟩ := ih ends rfl
    exact ⟨c₁, ks₁, ks₂, .disabled indent starts inactive dead front, back⟩

end Span.Flow

theorem Conditional.Through.eq_of_regions {ks : List DirectiveKind} (h : c.Through ks c')
    (regions : ∀ kind ∈ ks, kind.isRegionMarker) : c' = c := by
  induction h with
  | nil => rfl
  | cons applied _ ih =>
    rw [List.forall_mem_cons] at regions
    obtain rfl := Conditional.apply_region regions.1 applied
    exact ih regions.2

namespace Item

def detach (n : Nat) (i : Item) : Item :=
  { i with decl := { i.decl with leading := i.decl.leading.drop n } }

variable {i : Item} {n : Nat}

theorem Sound.detach (h : i.Sound) (clean : Header.Clean (i.decl.leading.take n)) :
    Flow false true i.front (i.decl.leading.take n) (directives (i.decl.leading.take n)) i.front ∧
      (i.detach n).Sound := by
  have whole := List.take_append_drop n i.decl.leading
  obtain ⟨header, rest⟩ : Flow false true i.front (i.decl.leading.take n)
      (directives (i.decl.leading.take n)) i.front ∧
      Flow false true i.front (i.decl.leading.drop n) (directives (i.decl.leading.drop n))
        i.mid := by
    obtain empty | line := clean.lines
    · rw [empty, List.nil_append] at whole
      rw [empty, whole]
      exact ⟨.nil _ _, h.leading⟩
    · obtain ⟨c, ks, ks', front, back⟩ := (whole.symm ▸ h.leading : Flow false true i.front
        (i.decl.leading.take n ++ i.decl.leading.drop n) _ _).split line
      obtain rfl := front.eq_directives
      obtain rfl := back.eq_directives
      obtain rfl := front.through.eq_of_regions (isRegionMarker_of_free clean.free)
      exact ⟨front, back⟩
  refine ⟨header, h.active, rest, fun w asked => ?_, h.unmarked, h.through, h.replaced⟩
  obtain ⟨empty, spaces⟩ := h.indent w asked
  exact ⟨by simp [Item.detach, empty], spaces⟩

theorem Moves.detach (h : i.Moves) (n : Nat) : (i.detach n).Moves :=
  fun leading c g packed lineStart flow fits indent =>
    h leading c g packed lineStart flow fits indent

theorem Plain.detach (h : i.Plain) (n : Nat) : (i.detach n).Plain :=
  ⟨h.block, h.text, h.solid, h.trailing⟩

theorem word_detach (i : Item) (n : Nat) (pinned : Bool) :
    directives (i.decl.leading.take n) ++ ((i.detach n).word pinned).map Marker.kind =
      (i.word pinned).map Marker.kind := by
  simp only [word, List.map_append, map_kind_markers, detach]
  rw [← List.append_assoc, ← directives_append, List.take_append_drop]

variable {items : List Item}

theorem Row.detach {g' : Gap} (h : Row c .fresh (i :: items) c' g')
    (sound : ∀ j ∈ i :: items, j.Sound) (clean : Header.Clean (i.decl.leading.take n)) :
    Flow false true c (i.decl.leading.take n) (directives (i.decl.leading.take n)) c ∧
      Row c .fresh (i.detach n :: items) c' g' ∧ (∀ j ∈ i.detach n :: items, j.Sound) ∧
      ∀ pinned, directives (i.decl.leading.take n) ++
        ((i.detach n :: items).flatMap (word pinned)).map Marker.kind =
          ((i :: items).flatMap (word pinned)).map Marker.kind := by
  rw [List.forall_mem_cons] at sound
  obtain ⟨header, first⟩ := sound.1.detach clean
  cases h with
  | cons _ more =>
    refine ⟨header, .cons (i := i.detach n) (.inl rfl) more,
      List.forall_mem_cons.mpr ⟨first, sound.2⟩, fun pinned => ?_⟩
    simp only [List.flatMap_cons, List.map_append, ← List.append_assoc, i.word_detach n pinned]

def detachFirst (n : Nat) (items : List Item) : List Item :=
  items.modifyHead (detach n)

theorem detachFirst_zero (items : List Item) : detachFirst 0 items = items := by
  obtain - | ⟨⟨⟨⟩⟩, items⟩ := items <;> simp [detachFirst, detach]

theorem forall_detachFirst {P : Item → Prop} (keeps : ∀ i, P i → P (i.detach n))
    (h : ∀ i ∈ items, P i) : ∀ i ∈ detachFirst n items, P i := by
  cases items with
  | nil => exact h
  | cons i items =>
    rw [List.forall_mem_cons] at h
    exact List.forall_mem_cons.mpr ⟨keeps i h.1, h.2⟩

end Item

theorem Outline.Body.Respelt.detach {scope : Scope} {body : Body Entry} {ts : List PlacedToken}
    {imports attributes members : List CSharpTidy.Item}
    (h : body.Respelt roots scope ts imports attributes members) (k m n : Nat) :
    body.Respelt roots scope ts (Item.detachFirst k imports) (Item.detachFirst m attributes)
      (Item.detachFirst n members) := by
  have told {n : Nat} : ∀ i : CSharpTidy.Item, i.Told roots → (i.detach n).Told roots :=
    fun i known => ⟨known.first, known.counted, known.trailing, known.built⟩
  refine ⟨?_, fun regular lone => ?_⟩
  · have all := h.told
    simp only [List.forall_mem_append] at all ⊢
    exact ⟨⟨Item.forall_detachFirst told all.1.1, Item.forall_detachFirst told all.1.2⟩,
      Item.forall_detachFirst told all.2⟩
  · obtain ⟨alone, inImports, inAttributes, inMembers⟩ := h.rows regular lone
    refine ⟨fun last => ?_, Item.forall_detachFirst (fun _ => id) inImports,
      Item.forall_detachFirst (fun _ => id) inAttributes,
      Item.forall_detachFirst (fun _ => id) inMembers⟩
    rw [Item.detachFirst, List.length_modifyHead]
    exact alone last

/-- The header is what the first declaration of a source lost to it. -/
theorem Block.InRows.detach {b : Block Decl} {w : Insides} {g' : Gap}
    {imports attributes members : List Item}
    (h : b.InRows roots w c .fresh imports attributes members c' g') :
    Header.Clean (Header.detach b).1 ∧
    Flow false true c (Header.detach b).1 (Header.detach b).1.directives c ∧
    ∃ k m n, (Header.detach b).2.InRows roots w c .fresh (Item.detachFirst k imports)
        (Item.detachFirst m attributes) (Item.detachFirst n members) c' g' ∧
      ∀ pinned, (Header.detach b).1.directives ++ ((Item.detachFirst k imports ++
          Item.detachFirst m attributes ++ Item.detachFirst n members).flatMap
            (Item.word pinned)).map Marker.kind =
          ((imports ++ attributes ++ members).flatMap (Item.word pinned)).map Marker.kind := by
  obtain cut | ⟨d, rest, n, clean, place⟩ := Header.detach_cases b
  · rw [cut]
    refine ⟨⟨.inl rfl, rfl⟩, .nil _ _, 0, 0, 0, ?_⟩
    simp only [Item.detachFirst_zero]
    exact ⟨h, fun _ => rfl⟩
  obtain ⟨⟨importsEq, attributesEq, membersEq, row, sound, plain, moves⟩, inImports, inAttributes,
    inMembers⟩ := h
  simp only at importsEq attributesEq membersEq
  obtain ⟨first, cut⟩ | ⟨none, first, cut⟩ | ⟨none, none', first, cut⟩ := place
  · obtain ⟨i, imports, rfl, rfl, rfl⟩ := List.map_eq_cons_iff.mp (importsEq.trans first)
    obtain ⟨header, row, sound, kinds⟩ := row.detach sound clean
    simp only [List.cons_append, List.forall_mem_cons] at plain
    rw [cut]
    refine ⟨clean, header, n, 0, 0, ?_⟩
    simp only [Item.detachFirst_zero]
    exact ⟨⟨⟨rfl, attributesEq, membersEq, row, sound,
      List.forall_mem_cons.mpr ⟨plain.1.detach n, plain.2⟩, moves⟩, inImports, inAttributes,
      inMembers⟩, kinds⟩
  · obtain rfl := List.map_eq_nil_iff.mp (importsEq.trans none)
    obtain ⟨i, attributes, rfl, rfl, rfl⟩ := List.map_eq_cons_iff.mp (attributesEq.trans first)
    obtain ⟨header, row, sound, kinds⟩ := row.detach sound clean
    simp only [List.nil_append, List.forall_mem_cons] at plain
    rw [cut]
    refine ⟨clean, header, 0, n, 0, ?_⟩
    simp only [Item.detachFirst_zero]
    exact ⟨⟨⟨importsEq, rfl, membersEq, row, sound,
      List.forall_mem_cons.mpr ⟨plain.1.detach n, plain.2⟩, moves⟩, inImports, inAttributes,
      inMembers⟩, kinds⟩
  · obtain rfl := List.map_eq_nil_iff.mp (importsEq.trans none)
    obtain rfl := List.map_eq_nil_iff.mp (attributesEq.trans none')
    rw [first, List.map_cons] at membersEq
    obtain ⟨i, members, rfl, same, others⟩ := List.map_eq_cons_iff.mp membersEq
    have leading : d.leading = i.decl.leading := by rw [same, Decl.mapBlocks_eq]
    rw [leading] at clean
    obtain ⟨header, row, sound, kinds⟩ := row.detach sound clean
    rw [List.forall_mem_cons] at moves
    rw [cut, leading]
    refine ⟨clean, header, 0, 0, n, ⟨⟨importsEq, attributesEq, ?_, row, sound,
      plain, List.forall_mem_cons.mpr ⟨moves.1.detach n, moves.2⟩⟩, inImports, inAttributes,
      inMembers⟩, kinds⟩
    simp [Item.detachFirst, others, Item.detach, same, Decl.mapBlocks_eq]

end CSharpTidy
