import CSharpTidy.Proofs.Reader

/- What the lexer makes of a text, as a trace of a reader: piece by piece, with the reader in front
   of each piece and behind it. Where the lexer fails, so does the reader; hence a text has tokens
   exactly if it can be read, and then these. -/
namespace CSharpTidy

variable {s ahead rest : List Char} {p : Piece TriviaKind} {conditional : Conditional}
  {r r' : Reader} {a : Atom}

theorem Steps.void (active : conditional.isActive) (h : ∀ c ∈ s, isVoid c) (p : Place)
    (rest : List Char) : Steps ⟨p, conditional⟩ (s ++ rest) [] ⟨p.after s, conditional⟩ rest := by
  induction s generalizing p with
  | nil => exact .refl _ _
  | cons c s ih =>
    rw [List.forall_mem_cons] at h
    have first : Reader.step ⟨p, conditional⟩ c (s ++ rest) =
        some (Reader.pass ⟨p, conditional⟩ c (s ++ rest)) := by
      simp [Reader.step, Reader.live, active, h.1]
    exact .cons first (ih h.2 (p.next c))

/-- In dead code, no directive in `s` counts, with `ahead` behind it. -/
def Quiet (ahead : List Char) : Place → List Char → Prop
  | _, [] => True
  | p, c :: s =>
      ¬ (c = '#' ∧ p = .start ∧ Reader.switches (c :: (s ++ ahead))) ∧ Quiet ahead (p.next c) s

theorem quiet_append {p : Place} {t : List Char} :
    Quiet ahead p (s ++ t) ↔ Quiet (t ++ ahead) p s ∧ Quiet ahead (p.after s) t := by
  induction s generalizing p with
  | nil => simp [Quiet]
  | cons c s ih =>
    simp only [List.cons_append, Quiet, ih, Place.after_cons, List.append_assoc, and_assoc]

theorem quiet_of_no_hash {p : Place} (h : ∀ c ∈ s, c ≠ '#') : Quiet ahead p s := by
  induction s generalizing p with
  | nil => trivial
  | cons c s ih =>
    rw [List.forall_mem_cons] at h
    exact ⟨fun hash => h.1 hash.1, ih h.2⟩

theorem quiet_of_started {p : Place} (started : p ≠ .start) (h : ∀ c ∈ s, isLineBreak c = false) :
    Quiet ahead p s := by
  induction s generalizing p with
  | nil => trivial
  | cons c s ih =>
    rw [List.forall_mem_cons] at h
    refine ⟨fun hash => started hash.2.1, ih ?_ h.2⟩
    cases p with
    | start => exact absurd rfl started
    | masked => by_cases space : isSpace c <;> simp [Place.next, h.1, space]
    | inside => simp [Place.next, h.1]

theorem Steps.quiet (inactive : conditional.isActive = false) {p : Place} (h : Quiet ahead p s) :
    Steps ⟨p, conditional⟩ (s ++ ahead) [] ⟨p.after s, conditional⟩ ahead := by
  induction s generalizing p with
  | nil => exact .refl _ _
  | cons c s ih =>
    obtain ⟨passes, later⟩ := h
    have first : Reader.step ⟨p, conditional⟩ c (s ++ ahead) =
        some (Reader.pass ⟨p, conditional⟩ c (s ++ ahead)) := by
      simp only [Reader.step, inactive, Bool.false_eq_true, if_false, Reader.dead]
      rw [if_neg]
      simpa [and_assoc] using passes
    exact .cons first (ih later)

namespace Literal

theorem line_unbroken (s : List Char) :
    ∀ c ∈ s.takeWhile (fun c => !isLineBreak c), isLineBreak c = false := by
  intro c mem
  simpa using List.mem_takeWhile_imp mem

theorem afterLine_head {b : Char} (h : afterLine s = b :: rest) : isLineBreak b := by
  have := List.head?_dropWhile_not (fun c => !isLineBreak c) s
  rw [← afterLine, h] at this
  simpa using this

theorem line_append_afterLine (s : List Char) :
    s.takeWhile (fun c => !isLineBreak c) ++ afterLine s = s :=
  List.takeWhile_append_dropWhile

theorem takeWhile_line {line rest : List Char} (unbroken : ∀ c ∈ line, isLineBreak c = false)
    (ends : ∀ b, rest.head? = some b → isLineBreak b) :
    (line ++ rest).takeWhile (fun c => !isLineBreak c) = line ∧ afterLine (line ++ rest) = rest := by
  have inLine : ∀ c ∈ line, (!isLineBreak c) = true := by simpa using unbroken
  rw [afterLine, List.takeWhile_append_of_pos inLine, List.dropWhile_append_of_pos inLine]
  cases rest with
  | nil => simp
  | cons b rest => simp [ends b rfl]

end Literal

namespace Piece

theorem atConditional_eq (s : List Char) :
    atConditional s = (DirectiveLine.kind
      (Text.trimStart (s.takeWhile fun c => !isLineBreak c))).isConditional := by
  unfold atConditional DirectiveLine.kind
  cases DirectiveLine.kind? (Text.trimStart (s.takeWhile fun c => !isLineBreak c)) <;> rfl

theorem quiet_line (h : atConditional s = false) :
    Quiet (Literal.afterLine s) .start (s.takeWhile fun c => !isLineBreak c) := by
  have unbroken := Literal.line_unbroken s
  have ends : ∀ b, (Literal.afterLine s).head? = some b → isLineBreak b := by
    intro b head
    obtain ⟨rest, ahead⟩ := List.head?_eq_some_iff.mp head
    exact Literal.afterLine_head ahead
  rw [atConditional_eq] at h
  generalize s.takeWhile (fun c => !isLineBreak c) = line at h unbroken
  generalize Literal.afterLine s = rest at ends
  rw [← List.takeWhile_append_dropWhile (p := Text.isBlank) (l := line)] at unbroken ⊢
  rw [List.forall_mem_append] at unbroken
  have blank : ∀ c ∈ line.takeWhile Text.isBlank, Text.isBlank c := fun c => List.mem_takeWhile_imp
  rw [quiet_append, Place.after_blank blank]
  refine ⟨quiet_of_no_hash fun c mem => ?_, ?_⟩
  · rintro rfl
    exact absurd (blank '#' mem) (by decide)
  · rw [Text.trimStart] at h
    have first := List.head?_dropWhile_not Text.isBlank line
    generalize line.dropWhile Text.isBlank = content at *
    cases content with
    | nil => trivial
    | cons c content =>
      obtain ⟨here, later⟩ := List.forall_mem_cons.mp unbroken.2
      have solid : Text.isBlank c = false := by simpa using first
      refine ⟨?_, quiet_of_started ?_ later⟩
      · rintro ⟨rfl, -, switches⟩
        rw [Reader.switches, ← List.cons_append, (Literal.takeWhile_line unbroken.2 ends).1, h] at switches
        cases switches
      · by_cases space : isSpace c <;> simp [Place.next, here, solid, space]

theorem afterDisabled_cases (s : List Char) :
    afterDisabled s = [] ∨ atConditional (afterDisabled s) := by
  fun_induction afterDisabled s with
  | case1 => exact .inl rfl
  | case2 c rest stops => exact .inr stops
  | case3 => exact .inl rfl
  | case4 c rest _ b rest' _ ih => exact ih

variable {text : List Char}

theorem quiet_disabled (whole : text ++ afterDisabled s = s) : Quiet (afterDisabled s) .start text ∧
      (afterDisabled s ≠ [] → text ≠ [] → ∃ u b, text = u ++ [b] ∧ isLineBreak b) := by
  fun_induction afterDisabled s generalizing text with
  | case1 | case2 =>
    obtain rfl : text = [] := by simpa using whole
    exact ⟨trivial, by simp⟩
  | case3 c rest goesOn ended =>
    obtain rfl : text = c :: rest := by simpa using whole
    have line := Literal.line_append_afterLine (c :: rest)
    have quiet := quiet_line (by simpa using goesOn)
    rw [ended, List.append_nil] at line
    rw [line, ended] at quiet
    exact ⟨quiet, by simp⟩
  | case4 c rest goesOn b rest' ended ih =>
    have line := Literal.line_append_afterLine (c :: rest)
    have quiet := quiet_line (by simpa using goesOn)
    rw [ended] at line quiet
    rw [← splitBreak_append (b :: rest')] at line quiet
    have breaks := (splitBreak_isTerminator (Literal.afterLine_head ended) rest').isLineBreak
    rw [String.toList_ofList] at breaks
    have nonempty : (splitBreak (b :: rest')).1 ≠ [] := by
      unfold splitBreak
      split <;> simp_all
    generalize (c :: rest).takeWhile (fun c => !isLineBreak c) = front at line quiet
    generalize (splitBreak (b :: rest')).1 = split at *
    generalize (splitBreak (b :: rest')).2 = after at *
    -- the line, its break and the lines behind them
    obtain ⟨more, moreWhole⟩ := afterDisabled_suffix after
    have text_eq : text = front ++ (split ++ more) := by
      refine List.append_cancel_right (whole.trans ?_)
      rw [← line, List.append_assoc, List.append_assoc, moreWhole]
    obtain ⟨later, ends⟩ := ih moreWhole
    have started := Place.after_of_breaks nonempty breaks (Place.start.after front)
    subst text_eq
    rw [quiet_append, quiet_append, started]
    refine ⟨⟨?_, quiet_of_no_hash fun d mem => ?_, later⟩, fun goesOn _ => ?_⟩
    · rw [List.append_assoc, moreWhole]
      exact quiet
    · rintro rfl
      exact absurd (breaks '#' mem) (by decide)
    · by_cases last : more = []
      · obtain ⟨init, b, rfl⟩ := List.eq_nil_or_concat' split |>.resolve_left nonempty
        exact ⟨front ++ init, b, by simp [last], breaks b (by simp)⟩
      · obtain ⟨u, b, rfl, isBreak⟩ := ends goesOn last
        exact ⟨front ++ (split ++ u), b, by simp, isBreak⟩

theorem disabled_starts (whole : text ++ afterDisabled s = s) (goesOn : afterDisabled s ≠ []) :
    Place.start.after text = .start := by
  by_cases empty : text = []
  · rw [empty, Place.after_nil]
  · obtain ⟨u, b, rfl, breaks⟩ := (quiet_disabled whole).2 goesOn empty
    rw [Place.after_append, Place.after_cons, Place.next_of_isLineBreak breaks, Place.after_nil]

end Piece

def Trivia.isDirective (t : Trivia) : Bool :=
  match t.kind with
  | .directive _ => true
  | _ => false

namespace Atom

def text : Atom → List Char
  | .trivia t => t.text.toList
  | .token l => l.text.toList

def counts : Atom → Bool
  | .trivia t => t.isDirective
  | .token _ => true

/-- What the reader needs in front of an atom, with `rest` behind it, and what it is then. -/
inductive Passed (rest : List Char) : Reader → Atom → Reader → Prop
  | space {r : Reader} {t : Trivia} (kind : t.kind = .whitespace) (nonempty : t.text.toList ≠ [])
      (spaces : ∀ c ∈ t.text.toList, isSpace c) :
      Passed rest r (.trivia t) ⟨r.place.after t.text.toList, r.conditional⟩
  | lineEnd {r : Reader} {t : Trivia} (kind : t.kind = .endOfLine) (breaks : IsTerminator t.text) :
      Passed rest r (.trivia t) ⟨.start, r.conditional⟩
  | comment {r : Reader} {t : Trivia} (active : r.conditional.isActive)
      (found : Piece.comment? (t.text.toList ++ rest) = .ok (some ⟨t.kind, t.text.toList, rest⟩)) :
      Passed rest r (.trivia t) ⟨.inside, r.conditional⟩
  | directive {r : Reader} {t : Trivia} {body : List Char} {conditional : Conditional}
      (kind : t.kind = .directive (DirectiveLine.kind t.text.toList))
      (hash : t.text.toList = '#' :: body) (unbroken : ∀ c ∈ t.text.toList, isLineBreak c = false)
      (ends : ∀ b, rest.head? = some b → isLineBreak b) (opens : r.place ≠ .inside)
      (counts : r.conditional.isActive = false →
        r.place = .start ∧ (DirectiveLine.kind t.text.toList).isConditional)
      (applied : r.conditional.apply (DirectiveLine.kind t.text.toList) t.text.toList =
        .ok conditional) :
      Passed rest r (.trivia t) ⟨.inside, conditional⟩
  | disabled {r : Reader} {t : Trivia} (kind : t.kind = .disabled) (nonempty : t.text.toList ≠ [])
      (inactive : r.conditional.isActive = false) (starts : r.place = .start)
      (passed : Piece.afterDisabled (t.text.toList ++ rest) = rest) :
      Passed rest r (.trivia t) ⟨.after .start t.text.toList, r.conditional⟩
  | token {r : Reader} {l : Lexeme} {a : Char} {s : List Char} (active : r.conditional.isActive)
      (front : l.text.toList ++ rest = a :: s) (solid : isVoid a = false)
      (unhashed : a = '#' → r.place = .inside) (comment : Piece.comment? (a :: s) = .ok none)
      (found : Piece.lexeme a s = .ok ⟨l.kind, l.text.toList, rest⟩) :
      Passed rest r (.token l) ⟨.inside, r.conditional⟩

end Atom

inductive Trace : Reader → List Atom → List Char → Reader → List Char → Prop
  | nil (r : Reader) (s : List Char) : Trace r [] s r s
  | cons {r r₁ r' : Reader} {a : Atom} {as : List Atom} {s s₁ s' : List Char}
      (first : a.Passed s₁ r r₁) (whole : s = a.text ++ s₁) (more : Trace r₁ as s₁ r' s') :
      Trace r (a :: as) s r' s'

namespace Trace

variable {r r' r'' : Reader} {as bs : List Atom} {s s' s'' : List Char}

theorem append (h : Trace r as s r' s') (more : Trace r' bs s' r'' s'') :
    Trace r (as ++ bs) s r'' s'' := by
  induction h with
  | nil => exact more
  | cons first whole _ ih => exact .cons first whole (ih more)

theorem split (h : Trace r (as ++ bs) s r'' s'') :
    ∃ r' s', Trace r as s r' s' ∧ Trace r' bs s' r'' s'' := by
  induction as generalizing r s with
  | nil => exact ⟨r, s, .nil r s, h⟩
  | cons a as ih =>
    cases h with
    | cons first whole more =>
      obtain ⟨r', s', front, back⟩ := ih more
      exact ⟨r', s', .cons first whole front, back⟩

theorem text_eq (h : Trace r as s r' s') : s = as.flatMap Atom.text ++ s' := by
  induction h with
  | nil => rfl
  | cons first whole _ ih => rw [whole, ih, List.flatMap_cons, List.append_assoc]

end Trace

theorem Piece.comment?_front (h : comment? s = .ok (some p)) : ∃ rest, s = '/' :: rest := by
  unfold comment? at h
  split at h
  · exact ⟨_, rfl⟩
  · exact ⟨_, rfl⟩
  · cases h

theorem Piece.comment?_isComment (h : comment? s = .ok (some p)) (text : String) :
    Trivia.isComment ⟨p.kind, text⟩ := by
  unfold comment? at h
  split at h
  · cases h
    unfold lineCommentKind
    split <;> rfl
  · split at h <;> cases h
    rfl
  · cases h

theorem textBefore_append_self (s rest : List Char) : textBefore (s ++ rest) rest = s := by
  simp [textBefore]

namespace Reader

variable {c : Char}

theorem step_comment (active : r.conditional.isActive)
    (found : Piece.comment? (c :: s) = .ok (some p)) :
    r.step c s = some ⟨[], ⟨.inside, r.conditional⟩, p.rest⟩ := by
  obtain ⟨rest, front⟩ := Piece.comment?_front found
  obtain ⟨rfl, rfl⟩ := List.cons.inj front
  have solid : isVoid '/' = false := by decide
  simp [step, live, active, solid, found]

theorem step_lexeme (active : r.conditional.isActive) (solid : isVoid c = false)
    (unhashed : c = '#' → r.place = .inside) (comment : Piece.comment? (c :: s) = .ok none) :
    r.step c s = (Piece.lexeme c s).toOption.map fun p =>
      ⟨[.token ⟨p.kind, String.ofList p.text⟩], ⟨.inside, r.conditional⟩, p.rest⟩ := by
  have noHash : (c == '#' && r.place != .inside) = false := by
    by_cases hash : c = '#'
    · simp [unhashed hash]
    · simp [hash]
  simp only [step, active, if_true, live, solid, noHash, Bool.false_eq_true, if_false, comment]
  cases Piece.lexeme c s <;> rfl

theorem step_directive (opens : r.place ≠ .inside)
    (counts : r.conditional.isActive = false → r.place = .start ∧ switches ('#' :: s)) :
    r.step '#' s = r.directive ('#' :: s) := by
  have solid : isVoid '#' = false := by decide
  cases active : r.conditional.isActive with
  | true => simp [step, live, active, solid, opens]
  | false => simp [step, dead, active, counts active]

end Reader

def Atom.isWhole : Atom → Bool
  | .trivia t => t.isComment || t.isDirective
  | .token _ => true

theorem Atom.Passed.step (h : a.Passed rest r r') (whole : a.isWhole) :
    ∃ c s, a.text ++ rest = c :: s ∧ r.step c s = some ⟨[a].filter Atom.counts, r', rest⟩ := by
  cases h with
  | space kind | lineEnd kind | disabled kind =>
    simp [isWhole, Trivia.isComment, Trivia.isDirective, kind] at whole
  | @comment t active found =>
    obtain ⟨s, front⟩ := Piece.comment?_front found
    have comment : t.isComment := Piece.comment?_isComment found t.text
    have plain : t.isDirective = false := by
      unfold Trivia.isComment at comment
      unfold Trivia.isDirective
      split <;> simp_all
    rw [front] at found
    rw [List.filter_cons_of_neg (by simp [Atom.counts, plain])]
    exact ⟨'/', s, front, Reader.step_comment active found⟩
  | @directive t body conditional kind hash unbroken ends opens counts applied =>
    obtain ⟨line, behind⟩ := Literal.takeWhile_line unbroken ends
    have whole : Trivia.directiveLine t.text.toList = t := by
      rw [Trivia.directiveLine, ← kind, String.ofList_toList]
    have switches : Reader.switches (t.text.toList ++ rest) =
        (DirectiveLine.kind t.text.toList).isConditional := by rw [Reader.switches, line]
    have directive : r.directive (t.text.toList ++ rest) =
        some ⟨[.trivia t], ⟨.inside, conditional⟩, rest⟩ := by
      simp only [Reader.directive, line, applied, behind, whole]
    rw [hash, List.cons_append] at switches directive
    have first := Reader.step_directive opens fun inactive =>
      switches ▸ hash ▸ counts inactive
    rw [List.filter_cons_of_pos (by simp [Atom.counts, Trivia.isDirective, kind])]
    exact ⟨'#', body ++ rest, by rw [Atom.text, hash, List.cons_append], first.trans directive⟩
  | @token l a s active front solid unhashed comment found =>
    have first := Reader.step_lexeme active solid unhashed comment
    rw [found, Except.toOption, Option.map_some, String.ofList_toList] at first
    rw [List.filter_cons_of_pos rfl]
    exact ⟨a, s, front, first⟩

/-- Blanks and dead code are passed one character at a time. -/
theorem Atom.Passed.soft (h : a.Passed rest r r') (soft : a.isWhole = false) :
    r' = ⟨r.place.after a.text, r.conditional⟩ ∧ a.counts = false ∧
      (r.conditional.isActive → ∀ c ∈ a.text, isVoid c) ∧
      (r.conditional.isActive = false → Quiet rest r.place a.text) := by
  cases h with
  | @space t kind nonempty spaces =>
    refine ⟨rfl, by simp [counts, Trivia.isDirective, kind],
      fun _ c mem => isVoid_of_isSpace (spaces c mem), fun _ => quiet_of_no_hash fun c mem => ?_⟩
    rintro rfl
    exact absurd (spaces '#' mem) (by decide)
  | @lineEnd t kind breaks =>
    obtain ⟨b, more, text, -⟩ := breaks.exists_cons
    have start := Place.after_of_breaks (by simp [text]) breaks.isLineBreak r.place
    refine ⟨by rw [Atom.text, start], by simp [counts, Trivia.isDirective, kind],
      fun _ => breaks.isVoid, fun _ => quiet_of_no_hash fun c mem => ?_⟩
    rintro rfl
    exact absurd (breaks.isLineBreak '#' mem) (by decide)
  | comment active found => simp [isWhole, Piece.comment?_isComment found] at soft
  | directive kind => simp [isWhole, Trivia.isDirective, kind] at soft
  | @disabled t kind nonempty inactive starts passed =>
    have quiet := (Piece.quiet_disabled (passed.symm ▸ rfl :
      t.text.toList ++ Piece.afterDisabled (t.text.toList ++ rest) = _)).1
    rw [passed, ← starts] at quiet
    exact ⟨by rw [Atom.text, starts], by simp [counts, Trivia.isDirective, kind],
      fun active => absurd active (by simp [inactive]), fun _ => quiet⟩
  | token => cases soft

theorem Atom.Passed.steps (h : a.Passed rest r r') :
    Steps r (a.text ++ rest) ([a].filter Atom.counts) r' rest := by
  cases whole : a.isWhole with
  | true =>
    obtain ⟨c, s, front, first⟩ := h.step whole
    rw [front]
    exact .single first
  | false =>
    obtain ⟨rfl, uncounted, void, quiet⟩ := h.soft whole
    rw [List.filter_cons_of_neg (by simp [uncounted])]
    cases active : r.conditional.isActive with
    | true => exact .void active (void active) r.place rest
    | false => exact .quiet active (quiet active)

end CSharpTidy
