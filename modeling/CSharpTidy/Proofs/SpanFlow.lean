import CSharpTidy.Proofs.SpanSpacing
import CSharpTidy.Proofs.Watching

/- Trivia that are read on their own. A span flows if each directive in it stands at the start of a
   line, and each comment and directive that goes on to the end of its line has a line end behind
   it. What is dropped from a span or put in front of it when a text is tidied keeps the flow. -/
namespace CSharpTidy

def AtBreak (s : List Char) : Prop :=
  ∀ b, s.head? = some b → isLineBreak b

namespace Trivia

def runsOn (t : Trivia) : Bool :=
  match t.kind with
  | .lineComment | .docComment | .directive _ => true
  | _ => false

/-- A comment that is found wherever it stands, at the end of a line if it has to. -/
structure IsRemark (t : Trivia) : Prop where
  found : ∀ y, (t.runsOn → AtBreak y) →
    Piece.comment? (t.text.toList ++ y) = .ok (some ⟨t.kind, t.text.toList, y⟩)

structure IsDirective (t : Trivia) (k : DirectiveKind) : Prop where
  kind : t.kind = .directive k
  line : DirectiveLine.kind t.text.toList = k
  hash : ∃ body, t.text.toList = '#' :: body
  unbroken : ∀ a ∈ t.text.toList, isLineBreak a = false

structure IsDead (t : Trivia) : Prop where
  kind : t.kind = .disabled
  quiet : ∀ y, Quiet y .start t.text.toList
  ends : Place.start.after t.text.toList = .start

end Trivia

namespace Span

def White (span : Span) : Prop :=
  ∀ t ∈ span, t.isWhitespace ∧ ∀ a ∈ t.text.toList, isSpace a

/-- A line ends at the front of the span, or behind an empty one if `next` says so. -/
def Breaks (next : Bool) : Span → Prop
  | [] => next
  | t :: _ => t.isEndOfLine

/-- The span is read from state `c` to state `c'`, with these directives. `fresh` says that a line
starts in front of it, and `next` that a line ends behind it. -/
inductive Flow (next : Bool) :
    Bool → Conditional → Span → List DirectiveKind → Conditional → Prop
  | nil (fresh : Bool) (c : Conditional) : Flow next fresh c [] [] c
  | space {fresh : Bool} {c c' : Conditional} {t : Trivia} {rest : Span} {ks : List DirectiveKind}
      (kind : t.isWhitespace) (spaces : ∀ a ∈ t.text.toList, isSpace a)
      (more : Flow next false c rest ks c') : Flow next fresh c (t :: rest) ks c'
  | lineEnd {fresh : Bool} {c c' : Conditional} {t : Trivia} {rest : Span}
      {ks : List DirectiveKind} (kind : t.isEndOfLine) (breaks : IsTerminator t.text)
      (more : Flow next true c rest ks c') : Flow next fresh c (t :: rest) ks c'
  | comment {fresh : Bool} {c c' : Conditional} {t : Trivia} {rest : Span}
      {ks : List DirectiveKind} (active : c.isActive) (remark : t.IsRemark)
      (ends : t.runsOn → Breaks next rest) (more : Flow next false c rest ks c') :
      Flow next fresh c (t :: rest) ks c'
  | directive {c c₁ c' : Conditional} {white : Span} {t : Trivia} {kind : DirectiveKind}
      {rest : Span} {ks : List DirectiveKind} (indent : White white) (line : t.IsDirective kind)
      (ends : Breaks next rest)
      (counts : c.isActive = false →
        Place.start.after (Span.text white).toList = .start ∧ kind.isConditional)
      (applied : c.apply kind t.text.toList = .ok c₁) (more : Flow next false c₁ rest ks c') :
      Flow next true c (white ++ t :: rest) (kind :: ks) c'
  | disabled {c c' : Conditional} {white : Span} {t : Trivia} {rest : Span}
      {ks : List DirectiveKind} (indent : White white)
      (starts : Place.start.after (Span.text white).toList = .start) (inactive : c.isActive = false)
      (dead : t.IsDead) (more : Flow next true c rest ks c') :
      Flow next true c (white ++ t :: rest) ks c'

def Inert (span : Span) : Prop :=
  ∀ t ∈ span, t.directive? = none ∧ t.kind ≠ .disabled

end Span

theorem atBreak_nil : AtBreak [] := by
  simp [AtBreak]

variable {t : Trivia} {white rest : Span} {kind : DirectiveKind} {y s line : List Char}
  {ending : String} {c c' : Conditional} {p : Place} {r r' : Reader}

theorem Trivia.IsRemark.solid (h : t.IsRemark) :
    t.isBlank = false ∧ t.isEndOfLine = false ∧ t.directive? = none ∧ t.isRegionMarker = false := by
  have comment := Piece.comment?_isComment (h.found [] fun _ => atBreak_nil) t.text
  obtain ⟨kind, text⟩ := t
  cases kind <;> first | exact ⟨rfl, rfl, rfl, rfl⟩ | cases comment

theorem Trivia.IsRemark.isComment (h : t.IsRemark) : t.isComment :=
  Piece.comment?_isComment (h.found [] fun _ => atBreak_nil) t.text

theorem Trivia.IsRemark.inert (h : t.IsRemark) : t.directive? = none ∧ t.kind ≠ .disabled := by
  have comment := Piece.comment?_isComment (h.found [] fun _ => atBreak_nil) t.text
  refine ⟨h.solid.2.2.1, fun dead => ?_⟩
  rw [dead] at comment
  cases comment

theorem Conditional.apply_of_inactive (inactive : c.isActive = false)
    (plain : kind.isConditional = false) (h : c.apply kind line = .ok c') : c' = c := by
  cases apply_effect h <;> simp_all [DirectiveKind.isConditional]

namespace Reach

variable {α : Type} {note : Atom → Option α} {ns : List α} {d d' : Conditional}

theorem spaces (h : ∀ a ∈ s, isSpace a) (p : Place) (c : Conditional) (y : List Char) :
    Reach note ⟨p, c⟩ (s ++ y) [] ⟨p.after s, c⟩ y := by
  refine ⟨[], ?_, rfl⟩
  cases active : c.isActive with
  | true => exact .void active (fun a mem => isVoid_of_isSpace (h a mem)) p y
  | false =>
    refine .quiet active (quiet_of_no_hash fun a mem => ?_)
    rintro rfl
    exact absurd (h '#' mem) (by decide)

theorem lineEnd (h : IsTerminator ending) (p : Place) (c : Conditional) (y : List Char) :
    Reach note ⟨p, c⟩ (ending.toList ++ y) [] ⟨.start, c⟩ y := by
  refine ⟨[], ?_, rfl⟩
  obtain ⟨b, more, text, -⟩ := h.exists_cons
  rw [← Place.after_of_breaks (by simp [text]) h.isLineBreak p]
  cases active : c.isActive with
  | true => exact .void active h.isVoid p y
  | false =>
    refine .quiet active (quiet_of_no_hash fun a mem => ?_)
    rintro rfl
    exact absurd (h.isLineBreak '#' mem) (by decide)

theorem comment (h : t.IsRemark) (seen : t.Seen note d ns d') (p : Place)
    (ends : t.runsOn → AtBreak y) : Reach note ⟨p, d⟩ (t.text.toList ++ y) ns ⟨.inside, d'⟩ y := by
  have found := h.found y ends
  have remark := h.isComment
  obtain ⟨even, rfl, rfl⟩ := (Trivia.seen_of_isComment remark).mp seen
  cases active : d'.isActive with
  | true =>
    have passed : Atom.Passed y ⟨p, d'⟩ (.trivia t) ⟨.inside, d'⟩ := .comment active found
    have uncounted : Atom.counts (.trivia t) = false := by
      simp only [Trivia.isComment] at remark
      simp only [Atom.counts, Trivia.isDirective]
      split <;> simp_all
    exact ⟨_, passed.steps, by simp [uncounted]⟩
  | false =>
    obtain ⟨rest, slash⟩ := Piece.comment?_front (h.found [] fun _ => atBreak_nil)
    rw [List.append_nil] at slash
    have solid := Piece.comment?_endsSolid found
    have lines := even active
    rw [isEven, slash] at lines
    rw [slash] at solid ⊢
    exact .hidden active (fun hash => absurd hash (by decide)) (by decide) solid lines y

theorem directive (h : t.IsDirective kind) (seen : t.Seen note d ns d') (opens : p ≠ .inside)
    (counts : d.isActive = false → p = .start) (ends : AtBreak y) :
    Reach note ⟨p, d⟩ (t.text.toList ++ y) ns ⟨.inside, d'⟩ y := by
  obtain ⟨kindEq, rfl, ⟨body, hash⟩, unbroken⟩ := h
  obtain ⟨applied, rfl⟩ := (Trivia.seen_of_directive kindEq).mp seen
  by_cases found : d.isActive || (DirectiveLine.kind t.text.toList).isConditional
  · have passed : Atom.Passed y ⟨p, d⟩ (.trivia t) ⟨.inside, d'⟩ :=
      .directive kindEq hash unbroken ends opens
        (fun inactive => ⟨counts inactive, by simpa [inactive] using found⟩) applied
    refine ⟨_, passed.steps, ?_⟩
    rw [if_pos found, List.filter_cons_of_pos (by simp [Atom.counts, Trivia.isDirective, kindEq])]
    cases noted : note (.trivia t) <;> simp [noted]
  · simp only [Bool.or_eq_true, not_or, Bool.not_eq_true] at found
    obtain ⟨inactive, plain⟩ := found
    obtain rfl := Conditional.apply_of_inactive inactive plain applied
    have solid : isVoid '#' = false := by decide
    have quiet : Quiet y p t.text.toList := by
      have line := (Literal.takeWhile_line unbroken ends).1
      rw [hash] at line plain unbroken ⊢
      constructor
      · rintro ⟨-, -, switches⟩
        rw [Reader.switches, ← List.cons_append, line, plain] at switches
        cases switches
      · rw [Place.next_of_solid solid]
        exact quiet_of_started (by simp) (List.forall_mem_cons.mp unbroken).2
    have steps := Steps.quiet inactive quiet
    rw [hash, Place.after_cons, Place.next_of_solid solid,
      Place.after_inside (List.forall_mem_cons.mp (hash ▸ unbroken)).2, ← hash] at steps
    exact ⟨[], steps, by simp [inactive, plain]⟩

theorem dead (h : t.IsDead) (seen : t.Seen note d ns d') (y : List Char) :
    Reach note ⟨.start, d⟩ (t.text.toList ++ y) ns ⟨.start, d'⟩ y := by
  exact ((Trivia.seen_of_disabled h.kind).mp seen).2.2 y

end Reach

theorem Conditional.apply_region (region : kind.isRegionMarker) (h : c.apply kind line = .ok c') :
    c' = c := by
  cases apply_effect h <;> first | rfl | cases region

namespace Span

variable {span : Span} {next : Bool} {w : Trivia}

theorem White.text (h : White span) : ∀ a ∈ (Span.text span).toList, isSpace a := by
  induction span with
  | nil => simp [Span.text]
  | cons t span ih =>
    rw [White, List.forall_mem_cons] at h
    rw [text_cons, String.toList_append, List.forall_mem_append]
    exact ⟨h.1.2, ih h.2⟩

theorem White.opens (h : White span) : Place.start.after (Span.text span).toList ≠ .inside := by
  rw [ne_eq, Place.after_eq_inside_iff h.text]
  simp

theorem White.isBlank (h : White span) : ∀ t ∈ span, t.isBlank := by
  intro t mem
  simp [Trivia.isBlank, (h t mem).1]

theorem White.tail (h : White (w :: white)) : White white :=
  fun t mem => h t (List.mem_cons_of_mem w mem)

theorem White.starts (h : White (w :: white))
    (blank : Place.start.after (Span.text (w :: white)).toList = .start) :
    Place.start.after (Span.text white).toList = .start := by
  have masked : ∀ s : List Char, (∀ a ∈ s, isSpace a) → Place.masked.after s = .masked := by
    intro s spaces
    induction s with
    | nil => rfl
    | cons a s ih =>
      rw [List.forall_mem_cons] at spaces
      have unbroken : isLineBreak a = false := by
        by_contra breaks
        rw [isSpace_eq_false_of_isLineBreak (by simpa using breaks)] at spaces
        cases spaces.1
      simp only [Place.after_cons, Place.next, unbroken, spaces.1, if_true, Bool.false_eq_true,
        if_false, ih spaces.2]
  have opens := (Place.after_eq_inside_iff (h w (by simp)).2 .start).not.mpr (by simp)
  rw [text_cons, String.toList_append, Place.after_append] at blank
  cases place : Place.start.after w.text.toList with
  | start => rwa [place] at blank
  | masked =>
    rw [place, masked _ h.tail.text] at blank
    cases blank
  | inside => exact absurd place opens

theorem White.not_breaks (h : White white) (solid : t.isEndOfLine = false) :
    ¬ Breaks next (white ++ t :: rest) := by
  cases white with
  | nil => simp [Breaks, solid]
  | cons w white =>
    have := (h w (by simp)).1
    simp_all [Breaks, Trivia.isWhitespace, Trivia.isEndOfLine]

theorem endsLine_cons (t : Trivia) (rest : Span) :
    endsLine (t :: rest) = if rest.isEmpty then t.isEndOfLine else endsLine rest := by
  cases rest with
  | nil => simp [endsLine]
  | cons next rest => simp [endsLine, List.getLast?_cons_cons]

theorem endsLine_append_cons (front : Span) (t : Trivia) (rest : Span) :
    endsLine (front ++ t :: rest) = endsLine (t :: rest) := by
  simp [endsLine, List.getLast?_cons]

theorem tail_of_endsLine (front : Span) (h : endsLine (front ++ t :: rest)) :
    rest = [] ∨ rest.endsLine := by
  rw [endsLine_append_cons, endsLine_cons] at h
  cases rest with
  | nil => exact .inl rfl
  | cons next rest => exact .inr h

theorem endsLine_behind (solid : t.isEndOfLine = false) (front : Span)
    (h : endsLine (front ++ t :: rest)) : endsLine rest := by
  obtain rfl | ended := tail_of_endsLine front h
  · simp [endsLine, solid] at h
  · exact ended

theorem contentEnd_cons (t : Trivia) (rest : Span) :
    contentEnd (t :: rest) =
      if t.isBlank && (contentEnd rest).isEmpty then [] else t :: contentEnd rest := by
  have empty : (contentEnd rest).isEmpty = (rest.reverse.dropWhile Trivia.isBlank).isEmpty :=
    List.isEmpty_reverse ..
  rw [empty, contentEnd, List.rdropWhile, List.reverse_cons, List.dropWhile_append]
  split
  · rename_i none
    rw [contentEnd, List.rdropWhile, List.isEmpty_iff.mp none]
    cases blank : t.isBlank <;> simp [blank]
  · rename_i some
    simp [some, contentEnd, List.rdropWhile, -List.isEmpty_iff]

theorem contentEnd_append_cons (front : Span) (solid : t.isBlank = false) (rest : Span) :
    contentEnd (front ++ t :: rest) = front ++ t :: contentEnd rest := by
  induction front with
  | nil => simp [contentEnd_cons, solid]
  | cons a front ih => simp [contentEnd_cons, ih]

theorem Breaks.contentEnd (h : Breaks next rest) :
    Breaks false (Span.contentEnd rest ++ [.lineEnd ending]) := by
  cases rest with
  | nil => rfl
  | cons t rest =>
    rw [contentEnd_cons]
    split
    · rfl
    · exact h

namespace Flow

variable {next fresh : Bool} {c c' : Conditional} {span : Span} {ks : List DirectiveKind}

theorem atBreak (h : Flow next fresh c span ks c') (breaks : Breaks next span)
    (ends : next → AtBreak y) : AtBreak ((Span.text span).toList ++ y) := by
  cases h with
  | nil => simpa [Span.text] using ends breaks
  | space kind => simp_all [Breaks, Trivia.isWhitespace, Trivia.isEndOfLine]
  | lineEnd kind line =>
    obtain ⟨b, more, text, breaks⟩ := line.exists_cons
    intro a head
    rw [text_cons, String.toList_append, text] at head
    cases head
    exact breaks b (by simp)
  | comment active remark => simp_all [Breaks, remark.solid]
  | directive indent line =>
    exact absurd breaks (indent.not_breaks (by simp [Trivia.isEndOfLine, line.kind]))
  | disabled indent starts inactive dead =>
    exact absurd breaks (indent.not_breaks (by simp [Trivia.isEndOfLine, dead.kind]))

section
variable {α : Type} {note : Atom → Option α} {d d' : Conditional} {ns : List α}

theorem starts_of_legible (h : Legible c d (Span.text white).toList) (indent : White white)
    (counts : c.isActive = false → Place.start.after (Span.text white).toList = .start)
    (inactive : d.isActive = false) : Place.start.after (Span.text white).toList = .start := by
  rcases h with rfl | unmarked
  · exact counts inactive
  · refine Place.after_blank fun a mem => ?_
    have space := indent.text a mem
    have other : a ≠ '\ufeff' := fun same => unmarked (same ▸ mem)
    simp only [isSpace, Bool.or_eq_true, Bool.and_eq_true, beq_iff_eq, other, or_false] at space
    exact space.1

variable {d₁ : Conditional} {front : Span}

theorem legible_left (h : Legible c d (Span.text (front ++ rest)).toList) :
    Legible c d (Span.text front).toList :=
  h.mono fun a mem => by simp [text_append, mem]

theorem legible_right (h : Legible c d (Span.text (front ++ rest)).toList) :
    Legible c d (Span.text rest).toList :=
  h.mono fun a mem => by simp [text_append, mem]

theorem legible_tail (h : Legible c d (Span.text (t :: rest)).toList) :
    Legible c d (Span.text rest).toList :=
  h.mono fun a mem => by simp [text_cons, mem]

theorem legible_directive {c₁ : Conditional}
    (h : Legible c d (Span.text (white ++ t :: rest)).toList) (line : t.IsDirective kind)
    (applied : c.apply kind t.text.toList = .ok c₁) (seen : t.Seen note d ns d₁) :
    Legible c₁ d₁ (Span.text rest).toList := by
  refine (legible_tail (legible_right h)).imp_left ?_
  rintro rfl
  exact Except.ok.inj (((Trivia.seen_of_directive line.kind).mp seen).1.symm.trans applied)

theorem legible_dead (h : Legible c d (Span.text (white ++ t :: rest)).toList) (dead : t.IsDead)
    (inactive : c.isActive = false) (seen : t.Seen note d ns d₁) :
    Legible c d₁ (Span.text rest).toList := by
  refine (legible_tail (legible_right h)).imp_left ?_
  rintro rfl
  exact ((Trivia.seen_of_disabled dead.kind).mp seen).1 (.inl inactive)

theorem sees_indented (indent : White white)
    (h : Sees note d ((white ++ t :: rest).map .trivia) ns d') : ∃ d₁ ns₁ ns₂,
      ns = ns₁ ++ ns₂ ∧ t.Seen note d ns₁ d₁ ∧ Sees note d₁ (rest.map .trivia) ns₂ d' := by
  rw [List.map_append, List.map_cons] at h
  obtain ⟨d₀, ns₀, ns₁, rfl, blanks, behind⟩ := h.split
  obtain ⟨rfl, rfl⟩ := blanks.of_blank indent.isBlank
  cases behind with
  | @cons _ d₁ _ _ _ ns₁ ns₂ first later => exact ⟨d₁, ns₁, ns₂, rfl, first, later⟩

theorem reach_directive (indent : White white) (line : t.IsDirective kind)
    (legible : Legible c d (Span.text white).toList)
    (counts : c.isActive = false → Place.start.after (Span.text white).toList = .start)
    (seen : t.Seen note d ns d') (ends : AtBreak y) :
    Reach note ⟨.start, d⟩ ((Span.text white).toList ++ (t.text.toList ++ y)) ns ⟨.inside, d'⟩ y :=
  (Reach.spaces indent.text .start _ _).trans
    (Reach.directive line seen indent.opens (starts_of_legible legible indent counts) ends)

theorem reach_dead (indent : White white)
    (starts : Place.start.after (Span.text white).toList = .start) (dead : t.IsDead)
    (seen : t.Seen note d ns d') (y : List Char) :
    Reach note ⟨.start, d⟩ ((Span.text white).toList ++ (t.text.toList ++ y)) ns ⟨.start, d'⟩ y := by
  have spaces : Reach note _ _ [] _ _ := Reach.spaces indent.text .start d (t.text.toList ++ y)
  rw [starts] at spaces
  exact spaces.trans (Reach.dead dead seen y)

/-- A span that flows is read, up to the start of a line if its last line is ended. -/
theorem reach (h : Flow next fresh c span ks c') (sees : Sees note d (span.map .trivia) ns d')
    (legible : Legible c d (Span.text span).toList) (starts : fresh → p = .start)
    (ends : next → AtBreak y) :
    ∃ p', Reach note ⟨p, d⟩ ((Span.text span).toList ++ y) ns ⟨p', d'⟩ y ∧ (span = [] → p' = p) ∧
      (span.endsLine → p' = .start) := by
  induction h generalizing p d ns with
  | nil =>
    cases sees
    exact ⟨p, .refl _ _, fun _ => rfl, by simp [Span.endsLine]⟩
  | @space fresh c c' t rest ks kind spaces more ih =>
    have solid : t.isEndOfLine = false := by simp_all [Trivia.isWhitespace, Trivia.isEndOfLine]
    cases sees with
    | cons first later =>
      obtain ⟨rfl, rfl⟩ := (Trivia.seen_of_isBlank (by simp [Trivia.isBlank, kind])).mp first
      obtain ⟨p', later, -, line⟩ := ih later (legible_tail legible)
        (p := p.after t.text.toList) (by simp)
      refine ⟨p', ?_, by simp, fun ended => line (endsLine_behind solid [] ended)⟩
      rw [text_cons, String.toList_append, List.append_assoc]
      exact (Reach.spaces spaces p _ _).trans later
  | @lineEnd fresh c c' t rest ks kind breaks more ih =>
    cases sees with
    | cons first later =>
      obtain ⟨rfl, rfl⟩ := (Trivia.seen_of_isBlank (by simp [Trivia.isBlank, kind])).mp first
      obtain ⟨p', later, empty, line⟩ := ih later (legible_tail legible) (p := .start) (by simp)
      refine ⟨p', ?_, by simp, fun ended => ?_⟩
      · rw [text_cons, String.toList_append, List.append_assoc]
        exact (Reach.lineEnd breaks p _ _).trans later
      · exact (tail_of_endsLine [] ended).elim empty line
  | @comment fresh c c' t rest ks active remark breaks more ih =>
    cases sees with
    | @cons _ d₁ _ _ _ _ _ first later =>
      have same : d₁ = d := ((Trivia.seen_of_isComment remark.isComment).mp first).2.2
      obtain ⟨p', later, -, line⟩ := ih later (same ▸ legible_tail legible) (p := .inside)
        (by simp)
      refine ⟨p', ?_, by simp, fun ended => line (endsLine_behind remark.solid.2.1 [] ended)⟩
      rw [text_cons, String.toList_append, List.append_assoc]
      exact (Reach.comment remark first p fun runsOn =>
        more.atBreak (breaks runsOn) ends).trans later
  | @directive c c₁ c' white t kind rest ks indent line breaks counts applied more ih =>
    have solid : t.isEndOfLine = false := by simp [Trivia.isEndOfLine, line.kind]
    obtain ⟨d₁, ns₁, ns₂, rfl, first, later⟩ := sees_indented indent sees
    obtain ⟨p', later, -, ended⟩ := ih later (legible_directive legible line applied first)
      (p := .inside) (by simp)
    obtain rfl := starts rfl
    refine ⟨p', ?_, by simp, fun behind => ended (endsLine_behind solid white behind)⟩
    rw [text_append, text_cons, String.toList_append, String.toList_append, List.append_assoc,
      List.append_assoc]
    exact (reach_directive indent line (legible_left legible) (fun dead => (counts dead).1) first
      (more.atBreak breaks ends)).trans later
  | @disabled c c' white t rest ks indent blank inactive dead more ih =>
    have solid : t.isEndOfLine = false := by simp [Trivia.isEndOfLine, dead.kind]
    obtain ⟨d₁, ns₁, ns₂, rfl, first, later⟩ := sees_indented indent sees
    obtain ⟨p', later, -, ended⟩ := ih later (legible_dead legible dead inactive first)
      (p := .start) (by simp)
    obtain rfl := starts rfl
    refine ⟨p', ?_, by simp, fun behind => ended (endsLine_behind solid white behind)⟩
    rw [text_append, text_cons, String.toList_append, String.toList_append, List.append_assoc,
      List.append_assoc]
    exact (reach_dead indent blank dead first _).trans later

end

theorem sees (h : Flow next fresh c span ks c') :
    Sees Atom.sign? c (span.map .trivia) (ks.map .inl) c' := by
  induction h with
  | nil => exact .nil _
  | space kind _ _ ih | lineEnd kind _ _ ih =>
    exact .skip ((Trivia.seen_of_isBlank (by simp [Trivia.isBlank, kind])).mpr ⟨rfl, rfl⟩) ih
  | comment active remark _ _ ih =>
    exact .skip ((Trivia.seen_of_isComment remark.isComment).mpr
      ⟨fun dead => absurd active (by simp [dead]), rfl, rfl⟩) ih
  | @directive c c₁ c' white t kind rest ks indent line _ counts applied _ ih =>
    have found : c.isActive || kind.isConditional := by
      cases active : c.isActive with
      | true => rfl
      | false => exact (counts active).2
    rw [List.map_append, List.map_cons]
    have seen : t.Seen Atom.sign? c [.inl kind] c₁ := by
      refine (Trivia.seen_of_directive line.kind).mpr ⟨applied, ?_⟩
      rw [if_pos found]
      simp [Atom.sign?, Trivia.directive?, line.kind]
    exact (Sees.blank c indent.isBlank).append (.cons (a := .trivia t) seen ih)
  | @disabled c c' white t rest ks indent _ inactive dead _ ih =>
    have passed : ∀ y, Reach Atom.sign? ⟨.start, c⟩ (t.text.toList ++ y) [] ⟨.start, c⟩ y := by
      intro y
      have steps := Steps.quiet inactive (dead.quiet y)
      rw [dead.ends] at steps
      exact ⟨[], steps, rfl⟩
    rw [List.map_append, List.map_cons]
    exact (Sees.blank c indent.isBlank).append
      (.skip ((Trivia.seen_of_disabled dead.kind).mpr ⟨fun _ => rfl, dead.ends, passed⟩) ih)

theorem atStart (h : Flow next fresh c span ks c') : Flow next true c span ks c' := by
  cases h with
  | nil => exact .nil true c
  | space kind spaces more => exact .space kind spaces more
  | lineEnd kind breaks more => exact .lineEnd kind breaks more
  | comment active remark ends more => exact .comment active remark ends more
  | directive indent line ends counts applied more =>
    exact .directive indent line ends counts applied more
  | disabled indent starts inactive dead more => exact .disabled indent starts inactive dead more

theorem atEnd (h : Flow false fresh c span ks c') (next : Bool) : Flow next fresh c span ks c' := by
  have loosen : ∀ {rest : Span}, Breaks false rest → Breaks next rest := by
    intro rest breaks
    cases rest with
    | nil => cases breaks
    | cons t rest => exact breaks
  induction h with
  | nil => exact .nil _ _
  | space kind spaces _ ih => exact .space kind spaces ih
  | lineEnd kind breaks _ ih => exact .lineEnd kind breaks ih
  | comment active remark ends _ ih =>
    exact .comment active remark (fun runsOn => loosen (ends runsOn)) ih
  | directive indent line ends counts applied _ ih =>
    exact .directive indent line (loosen ends) counts applied ih
  | disabled indent starts inactive dead _ ih => exact .disabled indent starts inactive dead ih

theorem anywhere (h : Flow next fresh c span ks c') (inert : span.Inert) (fresh' : Bool) :
    Flow next fresh' c span ks c' := by
  cases h with
  | nil => exact .nil _ c
  | space kind spaces more => exact .space kind spaces more
  | lineEnd kind breaks more => exact .lineEnd kind breaks more
  | comment active remark ends more => exact .comment active remark ends more
  | directive indent line =>
    have := (inert _ (List.mem_append_right _ (List.mem_cons_self ..))).1
    simp [Trivia.directive?, line.kind] at this
  | disabled indent starts inactive dead =>
    exact absurd dead.kind (inert _ (List.mem_append_right _ (List.mem_cons_self ..))).2

theorem of_blank_cons (h : Flow next fresh c (t :: span) ks c') (blank : t.isBlank) :
    Flow next true c span ks c' := by
  generalize whole : t :: span = L at h
  cases h with
  | nil => cases whole
  | space kind spaces more =>
    cases whole
    exact more.atStart
  | lineEnd kind breaks more =>
    cases whole
    exact more
  | comment active remark =>
    cases whole
    rw [remark.solid.1] at blank
    cases blank
  | @directive _ _ _ white d kind rest ks indent line ends counts applied more =>
    cases white with
    | nil =>
      cases whole
      simp [Trivia.isBlank, Trivia.isWhitespace, Trivia.isEndOfLine, line.kind] at blank
    | cons w white =>
      cases whole
      exact .directive indent.tail line ends
        (fun inactive => ⟨indent.starts (counts inactive).1, (counts inactive).2⟩) applied more
  | @disabled _ _ white d rest ks indent starts inactive dead more =>
    cases white with
    | nil =>
      cases whole
      simp [Trivia.isBlank, Trivia.isWhitespace, Trivia.isEndOfLine, dead.kind] at blank
    | cons w white =>
      cases whole
      exact .disabled indent.tail (indent.starts starts) inactive dead more

theorem of_blank_append {blanks : Span} (h : Flow next fresh c (blanks ++ span) ks c')
    (blank : ∀ t ∈ blanks, t.isBlank) : Flow next (fresh || !blanks.isEmpty) c span ks c' := by
  induction blanks generalizing fresh with
  | nil => simpa using h
  | cons t blanks ih =>
    rw [List.forall_mem_cons] at blank
    simpa using ih (of_blank_cons h blank.1) blank.2

theorem stripLeading (h : Flow next true c span ks c') :
    Flow next true c (Span.stripLeading span) ks c' := by
  obtain ⟨indent, strip, ⟨front, suffix⟩, -⟩ := exists_stripLeading span
  rw [← blanksBefore_append_content span, ← suffix, List.append_assoc, ← strip] at h
  have blank : ∀ t ∈ front, t.isBlank := fun t mem =>
    blanksBefore_blank t (suffix ▸ List.mem_append_left indent mem)
  simpa using of_blank_append h blank

theorem lineEnd_cons (terminator : IsTerminator ending) (h : Flow next true c span ks c')
    (fresh : Bool) : Flow next fresh c (.lineEnd ending :: span) ks c' :=
  .lineEnd rfl terminator h

theorem blank (h : Flow next fresh c span ks c') (blank : ∀ t ∈ span, t.isBlank) :
    ks = [] ∧ c' = c := by
  induction h with
  | nil => exact ⟨rfl, rfl⟩
  | space kind spaces more ih | lineEnd kind breaks more ih =>
    exact ih (List.forall_mem_cons.mp blank).2
  | comment active remark =>
    have := (List.forall_mem_cons.mp blank).1
    rw [remark.solid.1] at this
    cases this
  | directive indent line =>
    have := blank _ (List.mem_append_right _ (List.mem_cons_self ..))
    simp [Trivia.isBlank, Trivia.isWhitespace, Trivia.isEndOfLine, line.kind] at this
  | disabled indent starts inactive dead =>
    have := blank _ (List.mem_append_right _ (List.mem_cons_self ..))
    simp [Trivia.isBlank, Trivia.isWhitespace, Trivia.isEndOfLine, dead.kind] at this

theorem stripTrailing (terminator : IsTerminator ending) (h : Flow next fresh c span ks c') :
    Flow false fresh c (Span.stripTrailing ending span) ks c' := by
  have shut : ∀ (fresh : Bool) (c : Conditional), Flow false fresh c [.lineEnd ending] [] c :=
    fun fresh c => .lineEnd rfl terminator (.nil true c)
  have nothing : ∀ {fresh : Bool} {c c' : Conditional} {t : Trivia} {rest : Span}
      {ks : List DirectiveKind}, Flow next fresh c rest ks c' →
      t.isBlank && (contentEnd rest).isEmpty →
      ∀ fresh', Flow false fresh' c [.lineEnd ending] ks c' := by
    intro fresh c c' t rest ks more none fresh'
    simp only [Bool.and_eq_true, List.isEmpty_iff] at none
    obtain ⟨rfl, rfl⟩ := more.blank (List.rdropWhile_eq_nil_iff.mp none.2)
    exact shut fresh' c'
  rw [stripTrailing_eq]
  induction h with
  | nil => exact shut _ _
  | @space fresh c c' t rest ks kind spaces more ih =>
    rw [contentEnd_cons]
    split
    · exact nothing more ‹_› _
    · exact .space kind spaces ih
  | @lineEnd fresh c c' t rest ks kind breaks more ih =>
    rw [contentEnd_cons]
    split
    · exact nothing more ‹_› _
    · exact .lineEnd kind breaks ih
  | @comment fresh c c' t rest ks active remark ends more ih =>
    rw [contentEnd_cons, if_neg (by simp [remark.solid])]
    exact .comment active remark (fun runsOn => (ends runsOn).contentEnd) ih
  | @directive c c₁ c' white t kind rest ks indent line ends counts applied more ih =>
    rw [contentEnd_append_cons _ (by
      simp [Trivia.isBlank, Trivia.isWhitespace, Trivia.isEndOfLine, line.kind]), List.append_assoc]
    exact .directive indent line ends.contentEnd counts applied ih
  | @disabled c c' white t rest ks indent starts inactive dead more ih =>
    rw [contentEnd_append_cons _ (by
      simp [Trivia.isBlank, Trivia.isWhitespace, Trivia.isEndOfLine, dead.kind]), List.append_assoc]
    exact .disabled indent starts inactive dead ih

def stays (kind : DirectiveKind) : Bool :=
  !kind.isRegionMarker

def Clear (kept : Span) : Prop :=
  ∀ t, kept.head? = some t → t.isWhitespace = false

theorem stripRegionsFrom_white (h : White white) (kept : Span) (removed : Nat) (rest : Span) :
    stripRegionsFrom kept false removed (white ++ rest) =
      stripRegionsFrom (white.reverse ++ kept) false removed rest := by
  induction white generalizing kept with
  | nil => rfl
  | cons w white ih =>
    have kind := (h w (by simp)).1
    have plain : w.isRegionMarker = false := by
      simp only [Trivia.isWhitespace, beq_iff_eq] at kind
      simp [Trivia.isRegionMarker, kind]
    rw [List.cons_append, stripRegionsFrom, if_neg (by simp), if_neg (by simp [plain]), ih h.tail,
      List.reverse_cons, List.append_assoc, List.singleton_append]

theorem dropWhile_white {kept : Span} (h : White white) (clear : Clear kept) :
    (white.reverse ++ kept).dropWhile Trivia.isWhitespace = kept := by
  rw [List.dropWhile_append_of_pos fun t mem => (h t (List.mem_reverse.mp mem)).1]
  cases kept with
  | nil => rfl
  | cons t kept => rw [List.dropWhile_cons_of_neg (by simp [clear t rfl])]

/-- What is left of a span without its region lines. -/
structure Left (next fresh : Bool) (c : Conditional) (span : Span) (ks : List DirectiveKind)
    (c' : Conditional) (rest : Span) : Prop where
  flow : Flow next fresh c rest (ks.filter stays) c'
  breaks : Breaks next span → Breaks next rest
  remains : fresh = false ∨ c.isActive = false → span ≠ [] → rest ≠ []
  ends : span = [] ∨ span.endsLine → rest = [] ∨ rest.endsLine

theorem Left.ends_cons (h : Left next fresh c span ks c' rest)
    (goesOn : fresh = false ∨ c.isActive = false) (solid : t.isEndOfLine = false) (front : Span)
    (ends : front ++ t :: span = [] ∨ endsLine (front ++ t :: span)) :
    front ++ t :: rest = [] ∨ endsLine (front ++ t :: rest) := by
  have line := endsLine_behind solid front (ends.resolve_left (by simp))
  have nonempty : span ≠ [] := by
    rintro rfl
    cases line
  have remains := h.remains goesOn nonempty
  rw [endsLine_append_cons, endsLine_cons, if_neg (by simpa using remains)]
  exact .inr ((h.ends (.inr line)).resolve_left remains)

/-- Region lines may go. Behind one that went its line end goes too. -/
theorem stripRegionsFrom (h : Flow next fresh c span ks c') :
    (∀ kept removed, (fresh → Clear kept) → ∃ rest,
      (Span.stripRegionsFrom kept false removed span).1 = kept.reverse ++ rest ∧
        Left next fresh c span ks c' rest) ∧
    (Breaks next span → ∀ kept removed, Clear kept → ∃ rest,
      (Span.stripRegionsFrom kept true removed span).1 = kept.reverse ++ rest ∧
        Flow next true c rest (ks.filter stays) c' ∧
          (span = [] ∨ span.endsLine → rest = [] ∨ rest.endsLine)) := by
  induction h with
  | nil =>
    refine ⟨fun kept _ _ => ⟨[], ?_, .nil _ _, id, by simp, fun _ => .inl rfl⟩,
      fun _ kept _ _ => ⟨[], ?_, .nil _ _, fun _ => .inl rfl⟩⟩ <;> simp [Span.stripRegionsFrom]
  | @space fresh c c' t rest ks kind spaces more ih =>
    have plain : t.isRegionMarker = false ∧ t.isEndOfLine = false := by
      simp only [Trivia.isWhitespace, beq_iff_eq] at kind
      simp [Trivia.isRegionMarker, Trivia.isEndOfLine, kind]
    refine ⟨fun kept removed _ => ?_, fun breaks => ?_⟩
    · obtain ⟨rest', same, left⟩ := ih.1 (t :: kept) removed (by simp)
      refine ⟨t :: rest', ?_, .space kind spaces left.flow, ?_, by simp,
        left.ends_cons (.inl rfl) plain.2 []⟩
      · simpa [Span.stripRegionsFrom, plain] using same
      · simp [Breaks, plain]
    · simp [Breaks, plain] at breaks
  | @lineEnd fresh c c' t rest ks kind breaks more ih =>
    have plain : t.isRegionMarker = false ∧ t.isWhitespace = false := by
      simp only [Trivia.isEndOfLine, beq_iff_eq] at kind
      simp [Trivia.isRegionMarker, Trivia.isWhitespace, kind]
    refine ⟨fun kept removed _ => ?_, fun _ kept removed clear => ?_⟩
    · obtain ⟨rest', same, left⟩ := ih.1 (t :: kept) removed (by simp [Clear, plain])
      refine ⟨t :: rest', ?_, .lineEnd kind breaks left.flow, fun _ => kind, by simp,
        fun ends => .inr ?_⟩
      · simpa [Span.stripRegionsFrom, plain] using same
      · rw [endsLine_cons]
        obtain rfl | line := left.ends (tail_of_endsLine [] (ends.resolve_left (by simp)))
        · exact kind
        · split
          · exact kind
          · exact line
    · obtain ⟨rest', same, left⟩ := ih.1 kept removed (fun _ => clear)
      exact ⟨rest', by simpa [Span.stripRegionsFrom, kind] using same, left.flow, fun ends =>
        left.ends (tail_of_endsLine [] (ends.resolve_left (by simp)))⟩
  | @comment fresh c c' t rest ks active remark ends more ih =>
    refine ⟨fun kept removed _ => ?_, fun breaks => ?_⟩
    · obtain ⟨rest', same, left⟩ := ih.1 (t :: kept) removed (by simp)
      refine ⟨t :: rest', ?_, .comment active remark (fun runsOn => left.breaks (ends runsOn))
        left.flow, ?_, by simp, left.ends_cons (.inl rfl) remark.solid.2.1 []⟩
      · simpa [Span.stripRegionsFrom, remark.solid] using same
      · simp [Breaks, remark.solid]
    · simp [Breaks, remark.solid] at breaks
  | @directive c c₁ c' white t kind rest ks indent line ends counts applied more ih =>
    have solid : t.isEndOfLine = false := by simp [Trivia.isEndOfLine, line.kind]
    have marker : t.isRegionMarker = kind.isRegionMarker := by
      simp [Trivia.isRegionMarker, line.kind]
    refine ⟨fun kept removed clear => ?_, fun breaks => absurd breaks (indent.not_breaks solid)⟩
    rw [stripRegionsFrom_white indent, Span.stripRegionsFrom, if_neg (by simp)]
    cases region : kind.isRegionMarker with
    | true =>
      obtain rfl := Conditional.apply_region region applied
      obtain ⟨rest', same, flow, line⟩ := ih.2 ends kept (removed + 1) (clear rfl)
      rw [if_pos (marker.trans region), dropWhile_white indent (clear rfl)]
      refine ⟨rest', same, by simpa [stays, region] using flow,
        fun breaks => absurd breaks (indent.not_breaks solid), fun dead => ?_, fun ends =>
        line (tail_of_endsLine white (ends.resolve_left (by simp)))⟩
      have conditional := (counts (dead.resolve_left (by simp))).2
      cases kind <;> cases conditional <;> cases region
    | false =>
      obtain ⟨rest', same, left⟩ := ih.1 (t :: (white.reverse ++ kept)) removed (by simp)
      rw [if_neg (by simp [marker, region])]
      refine ⟨white ++ t :: rest', ?_, ?_, fun breaks => absurd breaks (indent.not_breaks solid),
        by simp, left.ends_cons (.inl rfl) solid white⟩
      · simpa using same
      · rw [List.filter_cons_of_pos (by simp [stays, region])]
        exact .directive indent line (left.breaks ends) counts applied left.flow
  | @disabled c c' white t rest ks indent starts inactive dead more ih =>
    have solid : t.isEndOfLine = false := by simp [Trivia.isEndOfLine, dead.kind]
    have plain : t.isRegionMarker = false := by simp [Trivia.isRegionMarker, dead.kind]
    refine ⟨fun kept removed clear => ?_, fun breaks => absurd breaks (indent.not_breaks solid)⟩
    obtain ⟨rest', same, left⟩ := ih.1 (t :: (white.reverse ++ kept)) removed
      (by simp [Clear, Trivia.isWhitespace, dead.kind])
    rw [stripRegionsFrom_white indent, Span.stripRegionsFrom, if_neg (by simp),
      if_neg (by simp [plain])]
    exact ⟨white ++ t :: rest', by simpa using same,
      .disabled indent starts inactive dead left.flow,
      fun breaks => absurd breaks (indent.not_breaks solid), by simp,
      left.ends_cons (.inr inactive) solid white⟩

theorem stripRegions (h : Flow next fresh c span ks c') :
    Flow next fresh c (Span.stripRegions span).1 (ks.filter stays) c' ∧
      (span = [] ∨ span.endsLine →
        (Span.stripRegions span).1 = [] ∨ (Span.stripRegions span).1.endsLine) := by
  obtain ⟨rest, same, left⟩ := h.stripRegionsFrom.1 [] 0 (by simp [Clear])
  rw [Span.stripRegions, same]
  exact ⟨left.flow, left.ends⟩

end Flow

end Span

namespace Literal

theorem afterBlockComment_append {rest : List Char} (h : afterBlockComment (s ++ rest) = some rest)
    (y : List Char) : afterBlockComment (s ++ y) = some y := by
  induction s with
  | nil =>
    have := afterBlockComment_length h
    simp at this
  | cons a s ih =>
    cases s with
    | nil =>
      exfalso
      by_cases closes : a = '*' ∧ rest.head? = some '/'
      · obtain ⟨rfl, head⟩ := closes
        obtain ⟨tail, rfl⟩ := List.head?_eq_some_iff.mp head
        have := congrArg List.length (Option.some.inj h)
        simp at this
      · rw [not_and] at closes
        rw [List.singleton_append, afterBlockComment_cons closes] at h
        exact absurd (afterBlockComment_length h) (Nat.lt_irrefl _)
    | cons b s =>
      by_cases closes : a = '*' ∧ b = '/'
      · obtain ⟨rfl, rfl⟩ := closes
        obtain rfl : s = [] := by simpa [afterBlockComment] using h
        rfl
      · have goesOn : ∀ z, a = '*' → (b :: s ++ z).head? ≠ some '/' := by
          intro z star
          simpa using fun slash => closes ⟨star, slash⟩
        rw [List.cons_append, afterBlockComment_cons (goesOn _)] at h ⊢
        exact ih h

end Literal

namespace Trivia

variable {t : Trivia} {rest : List Char}

theorem runsOn_lineComment (line : List Char) (text : String) :
    runsOn ⟨Piece.lineCommentKind line, text⟩ := by
  unfold Piece.lineCommentKind
  split <;> rfl

theorem isRemark_of_found
    (h : Piece.comment? (t.text.toList ++ rest) = .ok (some ⟨t.kind, t.text.toList, rest⟩)) :
    t.IsRemark ∧ (t.runsOn → AtBreak rest) := by
  obtain ⟨kind, text⟩ := t
  generalize whole : text.toList ++ rest = s at h
  unfold Piece.comment? at h
  split at h
  · rename_i more
    obtain ⟨rfl, line, rfl⟩ :
        Piece.lineCommentKind ('/' :: '/' :: more.takeWhile fun c => !isLineBreak c) = kind ∧
        '/' :: '/' :: more.takeWhile (fun c => !isLineBreak c) = text.toList ∧
        Literal.afterLine more = rest := by simpa using h
    have ends : AtBreak (Literal.afterLine more) := by
      intro b head
      obtain ⟨tail, ahead⟩ := List.head?_eq_some_iff.mp head
      exact Literal.afterLine_head ahead
    refine ⟨⟨fun y broken => ?_⟩, fun _ => ends⟩
    obtain ⟨taken, left⟩ := Literal.takeWhile_line (Literal.line_unbroken more)
      (broken (runsOn_lineComment _ _))
    simp only [← line, List.cons_append, Piece.comment?, taken, left]
  · rename_i more
    split at h
    · cases h
    · rename_i rest' ended
      obtain ⟨rfl, front, rfl⟩ : .blockComment = kind ∧
          textBefore ('/' :: '*' :: more) rest' = text.toList ∧ rest' = rest := by simpa using h
      obtain ⟨body, rfl⟩ := Literal.afterBlockComment_suffix ended
      have self : ∀ y, textBefore ('/' :: '*' :: (body ++ y)) y = '/' :: '*' :: body := fun y => by
        rw [← List.cons_append, ← List.cons_append, textBefore_append_self]
      rw [self] at front
      refine ⟨⟨fun y _ => ?_⟩, fun runsOn => by cases runsOn⟩
      simp only [← front, List.cons_append, Piece.comment?,
        Literal.afterBlockComment_append ended y, self]
  · cases h

theorem quiet_any {ahead : List Char} (h : Quiet ahead p s) (ends : p.after s = .start)
    (y : List Char) : Quiet y p s := by
  induction s generalizing p with
  | nil => trivial
  | cons a s ih =>
    obtain ⟨here, later⟩ := h
    refine ⟨?_, ih later ends⟩
    rintro ⟨rfl, rfl, switches⟩
    refine here ⟨rfl, rfl, ?_⟩
    -- the line of this directive ends inside of the dead text
    have broken : (s.takeWhile fun c => !isLineBreak c).length ≠ s.length := by
      intro whole
      have unbroken : ∀ b ∈ s, isLineBreak b = false := by
        intro b mem
        rw [← (List.takeWhile_prefix _).eq_of_length whole] at mem
        exact Literal.line_unbroken s b mem
      rw [Place.after_cons, Place.next_of_solid (by decide), Place.after_inside unbroken] at ends
      cases ends
    have line : ∀ z, ('#' :: (s ++ z)).takeWhile (fun c => !isLineBreak c) =
        '#' :: s.takeWhile fun c => !isLineBreak c := by
      intro z
      rw [List.takeWhile_cons_of_pos (by decide), List.takeWhile_append, if_neg broken]
    rw [Reader.switches, line] at switches ⊢
    exact switches

theorem isDead_of_passed (kind : t.kind = .disabled)
    (h : Piece.afterDisabled (t.text.toList ++ rest) = rest) (goesOn : rest ≠ []) : t.IsDead := by
  have whole : t.text.toList ++ Piece.afterDisabled (t.text.toList ++ rest) =
      t.text.toList ++ rest := by rw [h]
  have quiet := (Piece.quiet_disabled whole).1
  have ends := Piece.disabled_starts whole (h.symm ▸ goesOn)
  exact ⟨kind, quiet_any quiet ends, ends⟩

end Trivia

theorem Atom.Passed.text_ne_nil {a : Atom} {rest : List Char} (h : a.Passed rest r r') :
    a.text ≠ [] := by
  cases h with
  | space kind nonempty => exact nonempty
  | lineEnd kind breaks =>
    obtain ⟨b, more, text, -⟩ := breaks.exists_cons
    simp [Atom.text, text]
  | comment active found =>
    intro none
    have := Piece.comment?_length found
    simp_all [Atom.text]
  | directive kind hash => simp [Atom.text, hash]
  | disabled kind nonempty => exact nonempty
  | token active ahead solid unhashed comment found =>
    obtain ⟨t, text, -⟩ := Piece.lexeme_cons ahead found
    simp [Atom.text, text]

theorem Trace.ne_nil {as : List Atom} {s' : List Char} (h : Trace r as s r' s')
    (dead : r.conditional.isActive = false) (live : r'.conditional.isActive) : s ≠ [] := by
  cases h with
  | nil =>
    rw [dead] at live
    cases live
  | cons first whole more =>
    rw [whole]
    simp [first.text_ne_nil]

namespace Span

variable {next : Bool} {r r' : Reader} {c : Conditional} {span : Span} {s s' : List Char}

theorem White.append {as bs : Span} (h : White as) (h' : White bs) : White (as ++ bs) :=
  List.forall_mem_append.mpr ⟨h, h'⟩

theorem White.flow {ks : List DirectiveKind} (h : White white)
    (more : Flow next false c rest ks c') :
    Flow next true c (white ++ rest) ks c' := by
  cases white with
  | nil => exact more.atStart
  | cons w white =>
    refine .space (h w (by simp)).1 (h w (by simp)).2 ?_
    have := h.tail
    clear h
    induction white with
    | nil => exact more
    | cons w' white ih => exact .space (this w' (by simp)).1 (this w' (by simp)).2 (ih this.tail)

theorem directives_cons (t : Trivia) (rest : Span) :
    directives (t :: rest) = t.directive?.toList ++ rest.directives := by
  rw [directives, List.filterMap_cons]
  cases t.directive? <;> rfl

theorem breaks_of_trace (h : Trace ⟨.inside, c⟩ (span.map .trivia) s r' s') (atBreak : AtBreak s)
    (stop : AtBreak s' → next) : Breaks next span := by
  cases span with
  | nil =>
    cases h
    exact stop atBreak
  | cons t span =>
    cases h with
    | cons first whole more =>
      obtain ⟨b, text, eq⟩ := List.exists_cons_of_ne_nil first.text_ne_nil
      have breaks : isLineBreak b := atBreak b (by rw [whole, eq]; rfl)
      rw [Atom.text] at eq
      cases first with
      | space kind nonempty spaces =>
        have := spaces b (by simp [eq])
        rw [isSpace_eq_false_of_isLineBreak breaks] at this
        cases this
      | lineEnd kind => simp [Breaks, Trivia.isEndOfLine, kind]
      | comment active found =>
        obtain ⟨more, front⟩ := Piece.comment?_front found
        rw [eq] at front
        cases front
        exact absurd breaks (by decide)
      | directive kind hash unbroken ends opens => exact absurd rfl opens
      | disabled kind nonempty inactive starts => cases starts

/-- Traced trivia flow. -/
theorem flow_of_trace (h : Trace ⟨p, c⟩ (span.map .trivia) s r' s') (live : r'.conditional.isActive)
    (stop : AtBreak s' → next) :
    (p = .inside → Flow next false c span span.directives r'.conditional) ∧
    ∀ white : Span, White white → p = Place.start.after (Span.text white).toList →
      Flow next true c (white ++ span) span.directives r'.conditional := by
  induction span generalizing c p s with
  | nil =>
    cases h
    exact ⟨fun _ => .nil _ _, fun white indent _ => indent.flow (.nil _ _)⟩
  | cons t span ih =>
    rw [List.map_cons] at h
    cases h with
    | @cons _ r₁ _ _ _ _ s₁ _ first whole more =>
      cases first with
      | space kind nonempty spaces =>
        have white : t.isWhitespace := by simp [Trivia.isWhitespace, kind]
        have none : t.directive? = none := by simp [Trivia.directive?, kind]
        obtain ⟨inside, starts⟩ := ih more
        rw [directives_cons, none]
        refine ⟨fun place => .space white spaces (inside ?_), fun before indent place => ?_⟩
        · exact (Place.after_eq_inside_iff spaces p).mpr place
        · have single : White [t] := by simpa [White] using ⟨white, spaces⟩
          have := starts (before ++ [t]) (indent.append single) (by
            simp [text_append, place, Place.after_append])
          simpa using this
      | lineEnd kind breaks =>
        have ended : t.isEndOfLine := by simp [Trivia.isEndOfLine, kind]
        have none : t.directive? = none := by simp [Trivia.directive?, kind]
        have later := (ih more).2 [] (by simp [White]) rfl
        rw [directives_cons, none]
        exact ⟨fun _ => .lineEnd ended breaks later,
          fun before indent _ => indent.flow (.lineEnd ended breaks later)⟩
      | comment active found =>
        obtain ⟨remark, ends⟩ := Trivia.isRemark_of_found found
        have later := (ih more).1 rfl
        rw [directives_cons, remark.solid.2.2.1]
        have flow : Flow _ false _ _ _ _ := .comment active remark
          (fun runsOn => breaks_of_trace more (ends runsOn) stop) later
        exact ⟨fun _ => flow, fun before indent _ => indent.flow flow⟩
      | directive kind hash unbroken ends opens counts applied =>
        have later := (ih more).1 rfl
        rw [directives_cons, Trivia.directive?, kind]
        refine ⟨fun place => absurd place opens, fun before indent place => ?_⟩
        exact .directive indent ⟨kind, rfl, ⟨_, hash⟩, unbroken⟩ (breaks_of_trace more ends stop)
          (fun inactive => place ▸ counts inactive) applied later
      | disabled kind nonempty inactive starts passed =>
        have dead := Trivia.isDead_of_passed kind passed (more.ne_nil inactive live)
        have none : t.directive? = none := by simp [Trivia.directive?, kind]
        have later := (ih more).2 [] (by simp [White]) dead.ends
        rw [directives_cons, none]
        refine ⟨fun place => ?_, fun before indent place => ?_⟩
        · rw [place] at starts
          cases starts
        · exact .disabled indent (place ▸ starts) inactive dead later

end Span

end CSharpTidy
