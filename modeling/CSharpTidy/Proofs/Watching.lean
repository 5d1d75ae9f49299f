import CSharpTidy.Proofs.Relocation
import CSharpTidy.Proofs.SolidEnds
import CSharpTidy.Proofs.SpanContent

/- One text under two sets of symbols. A reader has cut the text into pieces, and a second reader
   looks at these pieces: what is live to the one may be dead to the other. The second reader is in
   step with the first as long as no line inside of a lexeme or a comment looks like a directive. -/
namespace CSharpTidy

namespace DirectiveKind

def changesSymbols (kind : DirectiveKind) : Bool :=
  kind == .define || kind == .undef

end DirectiveKind

/-- Where a line starts with a hash, the text from there on is as `P` says. `p` is the place in
front of the text. -/
def hashLines (P : List Char → Bool) : Place → List Char → Bool
  | _, [] => true
  | p, c :: s => (c != '#' || p == .inside || P (c :: s)) && hashLines P (p.next c) s

def opensNothing (s : List Char) : Bool :=
  s.any isLineBreak && !Reader.switches s

/-- No line of the text, the first one apart, looks like a directive that opens or closes a branch.
What stands behind the text cannot make it look like one. -/
def isEven (text : String) : Bool :=
  hashLines opensNothing .inside text.toList

def keepsSymbols (s : List Char) : Bool :=
  !(DirectiveLine.kind (s.takeWhile fun a => !isLineBreak a)).changesSymbols

def isCalm (text : String) : Bool :=
  hashLines keepsSymbols .start text.toList

variable {s t : List Char} {p : Place} {P : List Char → Bool}

namespace Place

theorem after_of_endsSolid (h : EndsSolid s) (p : Place) : p.after s = .inside := by
  obtain ⟨front, c, back, rfl, solid, inline⟩ := h
  rw [after_append, after_cons, next_of_solid solid, after_inside inline]

theorem next_ne_masked {c : Char} (h : p ≠ .masked) (unmarked : c ≠ '\ufeff') :
    p.next c ≠ .masked := by
  unfold next
  split
  · simp
  · rename_i inline
    cases p with
    | masked => exact absurd rfl h
    | inside => simp
    | start =>
      by_cases blank : Text.isBlank c
      · simp [blank]
      · simp [blank, isSpace, unmarked]

theorem after_ne_masked (h : p ≠ .masked) (unmarked : '\ufeff' ∉ s) : p.after s ≠ .masked := by
  induction s generalizing p with
  | nil => exact h
  | cons c s ih =>
    rw [List.mem_cons, not_or] at unmarked
    exact ih (next_ne_masked h (Ne.symm unmarked.1)) unmarked.2

end Place

theorem Literal.takeWhile_of_broken (h : s.any isLineBreak) (t : List Char) :
    (s ++ t).takeWhile (fun a => !isLineBreak a) = s.takeWhile fun a => !isLineBreak a := by
  obtain ⟨b, mem, breaks⟩ := List.any_eq_true.mp h
  rw [List.takeWhile_append, if_neg]
  intro whole
  have all := List.takeWhile_eq_self_iff.mp (List.takeWhile_prefix _ |>.eq_of_length whole) b mem
  rw [breaks] at all
  cases all

theorem Reader.switches_of_broken (h : s.any isLineBreak) (t : List Char) :
    switches (s ++ t) = switches s := by
  rw [switches, switches, Literal.takeWhile_of_broken h]

theorem quiet_of_hashLines (h : hashLines opensNothing p s) (ahead : List Char) :
    Quiet ahead p s := by
  induction s generalizing p with
  | nil => trivial
  | cons c s ih =>
    simp only [hashLines, Bool.and_eq_true, Bool.or_eq_true, bne_iff_ne, beq_iff_eq] at h
    refine ⟨?_, ih h.2⟩
    rintro ⟨rfl, rfl, switches⟩
    obtain ⟨broken, plain⟩ : _ ∧ _ := by simpa [opensNothing] using h.1
    rw [← List.cons_append, Reader.switches_of_broken (by simpa using broken), plain] at switches
    cases switches

theorem hashLines_right (h : hashLines P p (s ++ t)) : hashLines P (p.after s) t := by
  induction s generalizing p with
  | nil => exact h
  | cons c s ih =>
    rw [List.cons_append, hashLines, Bool.and_eq_true] at h
    exact ih h.2

theorem hashLines_of_inline (inline : ∀ a ∈ s, isLineBreak a = false) : hashLines P .inside s := by
  induction s with
  | nil => rfl
  | cons c s ih =>
    rw [List.forall_mem_cons] at inline
    have stays : Place.inside.next c = .inside := by simp [Place.next, inline.1]
    simp [hashLines, stays, ih inline.2]

theorem hashLines_left (h : hashLines opensNothing p (s ++ t))
    (inline : ∀ a ∈ t, isLineBreak a = false) : hashLines opensNothing p s := by
  have unbroken : t.any isLineBreak = false := List.any_eq_false.mpr (by simpa using inline)
  induction s generalizing p with
  | nil => rfl
  | cons c s ih =>
    simp only [List.cons_append, hashLines, Bool.and_eq_true] at h ⊢
    refine ⟨?_, ih h.2⟩
    have first := h.1
    simp only [Bool.or_eq_true] at first ⊢
    refine first.imp_right fun plain => ?_
    simp only [opensNothing, ← List.cons_append, List.any_append, unbroken, Bool.or_false,
      Bool.and_eq_true] at plain ⊢
    rw [Reader.switches_of_broken plain.1] at plain
    exact plain

/-- The two readers are in one state, or no U+FEFF hides a directive from the second one. -/
def Legible (c d : Conditional) (s : List Char) : Prop :=
  d = c ∨ '\ufeff' ∉ s

theorem Legible.mono {c d : Conditional} (h : Legible c d s) (sub : ∀ a ∈ t, a ∈ s) :
    Legible c d t :=
  h.imp_right fun unmarked mem => unmarked (sub _ mem)

section
variable {α : Type} (note : Atom → Option α)

/-- What a reader in state `d` notes of a piece of trivia that was cut in another state, and its
state behind it. Dead code of the other one may be live here, and is then read on its own. -/
def Trivia.Seen (t : Trivia) (d : Conditional) (ns : List α) (d' : Conditional) : Prop :=
  match t.kind with
  | .whitespace | .endOfLine => ns = [] ∧ d' = d
  | .lineComment | .docComment | .blockComment =>
      (d.isActive = false → isEven t.text) ∧ ns = [] ∧ d' = d
  | .directive kind =>
      d.apply kind t.text.toList = .ok d' ∧
        ns = if d.isActive || kind.isConditional then (note (.trivia t)).toList else []
  | .disabled =>
      (d.isActive = false ∨ isCalm t.text → d' = d) ∧ Place.start.after t.text.toList = .start ∧
        ∀ y, Reach note ⟨.start, d⟩ (t.text.toList ++ y) ns ⟨.start, d'⟩ y

def Atom.Seen : Atom → Conditional → List α → Conditional → Prop
  | .trivia t, d, ns, d' => t.Seen note d ns d'
  | .token l, d, ns, d' =>
      (d.isActive = false → isEven l.text) ∧
        (ns = if d.isActive then (note (.token l)).toList else []) ∧ d' = d

inductive Sees : Conditional → List Atom → List α → Conditional → Prop
  | nil (d : Conditional) : Sees d [] [] d
  | cons {d d₁ d' : Conditional} {a : Atom} {as : List Atom} {ns ns' : List α}
      (first : a.Seen note d ns d₁) (more : Sees d₁ as ns' d') : Sees d (a :: as) (ns ++ ns') d'

end

/-- What is noted of a piece of trivia depends on its kind alone. -/
def ByKind {α : Type} (note : Atom → Option α) : Prop :=
  ∀ t t' : Trivia, t.kind = t'.kind → note (.trivia t) = note (.trivia t')

theorem byKind_sign : ByKind Atom.sign? := by
  intro t t' same
  simp only [Atom.sign?, Trivia.directive?, same]

section
variable {α : Type} {note : Atom → Option α} {d d' : Conditional} {as bs : List Atom} {ns : List α}

namespace Trivia

variable {t : Trivia}

theorem seen_of_isBlank (h : t.isBlank) : t.Seen note d ns d' ↔ ns = [] ∧ d' = d := by
  obtain ⟨kind, text⟩ := t
  cases kind <;> first | rfl | cases h

theorem seen_of_isComment (h : t.isComment) :
    t.Seen note d ns d' ↔ (d.isActive = false → isEven t.text) ∧ ns = [] ∧ d' = d := by
  obtain ⟨kind, text⟩ := t
  cases kind <;> first | rfl | cases h

theorem seen_of_directive {kind : DirectiveKind} (h : t.kind = .directive kind) :
    t.Seen note d ns d' ↔ d.apply kind t.text.toList = .ok d' ∧
      ns = if d.isActive || kind.isConditional then (note (.trivia t)).toList else [] := by
  rw [Seen, h]

theorem seen_of_disabled (h : t.kind = .disabled) :
    t.Seen note d ns d' ↔ (d.isActive = false ∨ isCalm t.text → d' = d) ∧
      Place.start.after t.text.toList = .start ∧
      ∀ y, Reach note ⟨.start, d⟩ (t.text.toList ++ y) ns ⟨.start, d'⟩ y := by
  rw [Seen, h]

end Trivia

variable {d'' : Conditional} {β : Type}

theorem Reach.unique {note' : Atom → Option β} {ns' : List β} {r r' r'' : Reader} {s' : List Char}
    (h : Reach note r s ns r' s') (h' : Reach note' r s ns' r'' s') : r' = r'' := by
  obtain ⟨as, steps, -⟩ := h
  obtain ⟨bs, steps', -⟩ := h'
  exact steps.unique steps'

theorem Atom.Seen.unique {note' : Atom → Option β} {ns' : List β} {a : Atom}
    (h : a.Seen note d ns d') (h' : a.Seen note' d ns' d'') : d' = d'' := by
  cases a with
  | token l => exact h.2.2.trans h'.2.2.symm
  | trivia t =>
    obtain ⟨kind, text⟩ := t
    cases kind with
    | whitespace | endOfLine => exact h.2.trans h'.2.symm
    | lineComment | docComment | blockComment => exact h.2.2.trans h'.2.2.symm
    | directive => exact Except.ok.inj (h.1.symm.trans h'.1)
    | disabled => exact (Reader.mk.inj ((h.2.2 []).unique (h'.2.2 []))).2

theorem Passes.unique {note' : Atom → Option β} {ns' : List β} {text : List Char}
    (h : Passes note d text ns d') (h' : Passes note' d text ns' d'') : d' = d'' := by
  exact (Reader.mk.inj ((h .start []).unique (h' .start []))).2

namespace Sees

theorem append {ns' : List α} (h : Sees note d as ns d') (h' : Sees note d' bs ns' d'') :
    Sees note d (as ++ bs) (ns ++ ns') d'' := by
  induction h with
  | nil => exact h'
  | cons first _ ih =>
    rw [List.append_assoc]
    exact .cons first (ih h')

theorem split (h : Sees note d (as ++ bs) ns d') :
    ∃ d₁ ns₁ ns₂, ns = ns₁ ++ ns₂ ∧ Sees note d as ns₁ d₁ ∧ Sees note d₁ bs ns₂ d' := by
  induction as generalizing d ns with
  | nil => exact ⟨d, [], ns, rfl, .nil d, h⟩
  | cons a as ih =>
    cases h with
    | @cons _ d₁ _ _ _ ns₀ ns' first more =>
      obtain ⟨d₂, ns₁, ns₂, rfl, front, back⟩ := ih more
      exact ⟨d₂, ns₀ ++ ns₁, ns₂, (List.append_assoc ..).symm, .cons first front, back⟩

/-- What a reader sees settles its state, whatever it notes. -/
theorem unique {note' : Atom → Option β} {ns' : List β} (h : Sees note d as ns d')
    (h' : Sees note' d as ns' d'') : d' = d'' := by
  induction h generalizing ns' with
  | nil =>
    cases h'
    rfl
  | @cons d d₁ _ a _ _ _ first _ ih =>
    cases h' with
    | @cons _ d₂ _ _ _ _ _ first' more' =>
      obtain rfl : d₁ = d₂ := first.unique first'
      exact ih more'

theorem skip {t : Trivia} (first : t.Seen note d [] d) (more : Sees note d as ns d') :
    Sees note d (.trivia t :: as) ns d' :=
  List.nil_append ns ▸ .cons first more

variable {span : Span}

theorem blank (d : Conditional) (blank : ∀ t ∈ span, t.isBlank) :
    Sees note d (span.map .trivia) [] d := by
  induction span with
  | nil => exact .nil d
  | cons t span ih =>
    rw [List.forall_mem_cons] at blank
    exact .skip ((Trivia.seen_of_isBlank blank.1).mpr ⟨rfl, rfl⟩) (ih blank.2)

theorem of_blank (h : Sees note d (span.map .trivia) ns d') (blank : ∀ t ∈ span, t.isBlank) :
    ns = [] ∧ d' = d := by
  induction span generalizing d ns with
  | nil =>
    cases h
    exact ⟨rfl, rfl⟩
  | cons t span ih =>
    rw [List.forall_mem_cons] at blank
    cases h with
    | cons first more =>
      obtain ⟨rfl, rfl⟩ := (Trivia.seen_of_isBlank blank.1).mp first
      exact ih more blank.2

theorem solid_iff :
    Sees note d (span.solid.map .trivia) ns d' ↔ Sees note d (span.map .trivia) ns d' := by
  induction span generalizing d ns with
  | nil => rfl
  | cons t span ih =>
    by_cases kind : t.isBlank
    · rw [Span.solid_cons_of_blank kind, ih]
      constructor
      · exact .skip ((Trivia.seen_of_isBlank kind).mpr ⟨rfl, rfl⟩)
      · intro h
        cases h with
        | cons first more =>
          obtain ⟨rfl, rfl⟩ := (Trivia.seen_of_isBlank kind).mp first
          exact more
    · rw [Span.solid_cons_of_not_blank (by simpa using kind)]
      constructor
      · intro h
        cases h with
        | cons first more => exact .cons first (ih.mp more)
      · intro h
        cases h with
        | cons first more => exact .cons first (ih.mpr more)

theorem of_solid {span' : Span} (h : Sees note d (span.map .trivia) ns d')
    (same : span'.solid = span.solid) : Sees note d (span'.map .trivia) ns d' := by
  rw [← solid_iff, same, solid_iff]
  exact h

end Sees

namespace Reach

theorem hidden (inactive : d.isActive = false) {a : Char} (unhashed : a = '#' → p ≠ .start)
    (solid : isVoid a = false) (ends : EndsSolid (a :: s))
    (even : hashLines opensNothing .inside (a :: s)) (y : List Char) :
    Reach note ⟨p, d⟩ (a :: s ++ y) [] ⟨.inside, d⟩ y := by
  rw [hashLines, Bool.and_eq_true, Place.next_of_solid solid] at even
  have quiet : Quiet y p (a :: s) := by
    refine ⟨fun hash => unhashed hash.1 hash.2.1, ?_⟩
    rw [Place.next_of_solid solid]
    exact quiet_of_hashLines even.2 y
  have steps := Steps.quiet inactive quiet
  rw [Place.after_of_endsSolid ends] at steps
  exact ⟨[], steps, rfl⟩

end Reach

end

end CSharpTidy
