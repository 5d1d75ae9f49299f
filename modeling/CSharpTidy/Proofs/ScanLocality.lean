import CSharpTidy.Proofs.Trace

/- What a scanner passes depends on what it passes alone. If a mark stands behind the text that is
   passed, and scanners do not look behind such a mark, then the text behind the mark plays no
   part. -/
namespace CSharpTidy

/-- No scanner that stops in front of `z` looks behind it. -/
structure Stops (z : Char) : Prop where
  quote : z ≠ '"'
  sigil : Literal.isSigil z = false
  keyword : z.isLower = false
  gap : (z == ' ' || z == '\t') = false
  operator : ∀ op ∈ Piece.operators, z ∉ op.toList

variable {z : Char}

namespace Stops

theorem of_isLineBreak (h : isLineBreak z) : Stops z := by
  simp only [isLineBreak, Bool.or_eq_true, beq_iff_eq] at h
  rcases h with rfl | rfl <;> exact ⟨by decide, by decide, by decide, by decide, by decide⟩

theorem dot (h : Stops z) : z ≠ '.' := by
  rintro rfl
  exact h.operator ".." (by decide) (by decide)

theorem sign (h : Stops z) : z ≠ '+' ∧ z ≠ '-' := by
  constructor
  · rintro rfl
    exact h.operator "++" (by decide) (by decide)
  · rintro rfl
    exact h.operator "--" (by decide) (by decide)

theorem slash (h : Stops z) : z ≠ '/' := by
  rintro rfl
  exact h.operator "/=" (by decide) (by decide)

theorem star (h : Stops z) : z ≠ '*' := by
  rintro rfl
  exact h.operator "*=" (by decide) (by decide)

end Stops

/-- Every lexeme that starts in front of `z` ends there. -/
structure Mark (z : Char) : Prop extends Stops z where
  word : isWordPart z = false
  alphanum : z.isAlphanum = false

namespace Mark

theorem of_isLineBreak (h : isLineBreak z) : Mark z := by
  have stops := Stops.of_isLineBreak h
  simp only [isLineBreak, Bool.or_eq_true, beq_iff_eq] at h
  rcases h with rfl | rfl <;> exact ⟨stops, by decide, by decide⟩

theorem digit (h : Mark z) : z.isDigit = false := by
  have := h.alphanum
  simp only [Char.isAlphanum, Bool.or_eq_false_iff] at this
  exact this.2

theorem wordStart (h : Mark z) : isWordStart z = false ∧ z ≠ '_' := by
  have := h.word
  simp only [isWordPart, Bool.or_eq_false_iff, beq_eq_false_iff_ne] at this
  exact ⟨by simp [isWordStart, this], this.2⟩

end Mark

section Locality

variable {z : Char} {u w x y s : List Char}

theorem eq_append_of_suffix (front : s <:+ u ++ z :: x) (back : z :: x <:+ s) :
    ∃ v, s = v ++ z :: x ∧ ∃ a, u = a ++ v := by
  obtain ⟨v, rfl⟩ := back
  obtain ⟨a, whole⟩ := front
  refine ⟨v, rfl, a, ?_⟩
  rw [← List.append_assoc] at whole
  exact (List.append_cancel_right whole).symm

theorem suffix_cons_self (v : List Char) : z :: x <:+ v ++ z :: x :=
  ⟨v, rfl⟩

theorem dropWhile_local {p : Char → Bool} (h : (u ++ z :: x).dropWhile p = w ++ z :: x) :
    (u ++ z :: y).dropWhile p = w ++ z :: y ∧
      (u ++ z :: y).takeWhile p = (u ++ z :: x).takeWhile p := by
  induction u with
  | nil =>
    have stops : p z = false := by
      by_contra runs
      have short := (List.dropWhile_suffix (l := x) p).length_le
      rw [List.nil_append, List.dropWhile_cons_of_pos (by simpa using runs)] at h
      have := congrArg List.length h
      simp only [List.length_append, List.length_cons] at this
      omega
    obtain rfl : w = [] := by simpa [stops] using h
    simp [stops]
  | cons c u ih =>
    simp only [List.cons_append] at h ⊢
    by_cases runs : p c
    · rw [List.dropWhile_cons_of_pos runs] at h
      simp only [List.dropWhile_cons_of_pos runs, List.takeWhile_cons_of_pos runs, ih h, and_self]
    · rw [List.dropWhile_cons_of_neg runs, ← List.cons_append] at h
      obtain rfl := List.append_cancel_right h
      simp [runs]

theorem dropWhile_append_cons {p : Char → Bool} (stops : p z = false) (u x : List Char) :
    (u ++ z :: x).dropWhile p = u.dropWhile p ++ z :: x ∧
      (u ++ z :: x).takeWhile p = u.takeWhile p := by
  induction u with
  | nil => simp [stops]
  | cons c u ih =>
    by_cases runs : p c
    · simp [runs, ih]
    · simp [runs]

theorem exists_second (u w x y : List Char) (z : Char) :
    ∃ d s s', u ++ z :: x = d :: s ∧ u ++ z :: y = d :: s' ∧
      (s = w ++ z :: x → s' = w ++ z :: y) ∧ (d :: s = w ++ z :: x → d :: s' = w ++ z :: y) := by
  cases u with
  | nil =>
    refine ⟨z, x, y, rfl, rfl, fun short => ?_, fun same => ?_⟩
    · have := congrArg List.length short
      simp only [List.length_append, List.length_cons] at this
      omega
    · obtain rfl : w = [] := by simpa using same
      rfl
  | cons d u =>
    refine ⟨d, u ++ z :: x, u ++ z :: y, rfl, rfl, fun same => ?_, fun same => ?_⟩
    · rw [List.append_cancel_right same]
    · rw [← List.cons_append] at same ⊢
      rw [List.append_cancel_right same]

namespace Literal

variable {opened rest : List Char} {outer stack outer' : List Frame} {step : StringStep} {c : Char}
  {style : Style}

theorem afterCharacter_cons (escape : c ≠ '\\') (quote : c ≠ '\'') (s : List Char) :
    afterCharacter (c :: s) = if isLineBreak c then none else afterCharacter s := by
  rw [afterCharacter.eq_def]
  split <;> simp_all

theorem afterCharacter_local (h : afterCharacter (u ++ z :: x) = some (w ++ z :: x)) :
    afterCharacter (u ++ z :: y) = some (w ++ z :: y) := by
  induction u using afterCharacter.induct with
  | case1 =>
    have := afterCharacter_length h
    simp at this
    omega
  | case2 c rest ih => exact ih h
  | case3 rest =>
    obtain rfl := List.append_cancel_right (Option.some.inj h)
    rfl
  | case4 c rest single quote breaks =>
    have escape : c ≠ '\\' := by
      rintro rfl
      exact absurd breaks (by decide)
    rw [List.cons_append, afterCharacter_cons escape quote, if_pos breaks] at h
    cases h
  | case5 c rest single quote goesOn ih =>
    by_cases escape : c = '\\'
    · subst escape
      cases rest with
      | nil =>
        have := afterCharacter_length (show afterCharacter x = some (w ++ z :: x) from h)
        simp at this
        omega
      | cons d rest => exact absurd rfl (single d rest rfl)
    · rw [List.cons_append, afterCharacter_cons escape quote, if_neg goesOn] at h ⊢
      exact ih h

theorem afterBlockComment_cons (h : c = '*' → s.head? ≠ some '/') :
    afterBlockComment (c :: s) = afterBlockComment s := by
  rw [afterBlockComment.eq_def]
  split <;> simp_all

theorem afterBlockComment_local (h : afterBlockComment (u ++ z :: x) = some (w ++ z :: x)) :
    afterBlockComment (u ++ z :: y) = some (w ++ z :: y) := by
  induction u using afterBlockComment.induct with
  | case1 =>
    have := afterBlockComment_length h
    simp at this
    omega
  | case2 rest =>
    obtain rfl := List.append_cancel_right (Option.some.inj h)
    rfl
  | case3 c rest single ih =>
    by_cases ends : c = '*' ∧ (rest ++ z :: x).head? = some '/'
    · obtain ⟨rfl, slash⟩ := ends
      cases rest with
      | nil =>
        obtain rfl : z = '/' := by simpa using slash
        have := congrArg List.length (Option.some.inj h)
        simp at this
        omega
      | cons d rest =>
        obtain rfl : d = '/' := by simpa using slash
        exact absurd rfl (single rest rfl)
    · have same : (rest ++ z :: y).head? = (rest ++ z :: x).head? := by cases rest <;> rfl
      rw [not_and] at ends
      rw [List.cons_append, afterBlockComment_cons ends] at h
      rw [List.cons_append, afterBlockComment_cons (same ▸ ends)]
      exact ih h

theorem quotedStep_cons_cons (verbatim interpolated : Bool) (c d : Char) :
    (∀ s, quotedStep verbatim interpolated (c :: d :: s) = none) ∨
      (∃ step, ∀ s, quotedStep verbatim interpolated (c :: d :: s) = some (step, s)) ∨
      ∃ step, ∀ s, quotedStep verbatim interpolated (c :: d :: s) = some (step, d :: s) := by
  by_cases quote : c = '"'
  · subst quote
    by_cases doubled : verbatim = true ∧ d = '"'
    · obtain ⟨rfl, rfl⟩ := doubled
      exact .inr (.inl ⟨.text, fun s => rfl⟩)
    · refine .inr (.inr ⟨.close, fun s => ?_⟩)
      unfold quotedStep
      grind
  · by_cases escape : c = '\\'
    · subst escape
      cases verbatim with
      | true => exact .inr (.inr ⟨.text, fun s => rfl⟩)
      | false =>
        by_cases breaks : isLineBreak d
        · exact .inl fun s => by simp [quotedStep, breaks]
        · exact .inr (.inl ⟨.text, fun s => by simp [quotedStep, breaks]⟩)
    · by_cases brace : c = '{'
      · subst brace
        cases interpolated with
        | false => exact .inr (.inr ⟨.text, fun s => rfl⟩)
        | true =>
          by_cases doubled : d = '{'
          · subst doubled
            exact .inr (.inl ⟨.text, fun s => rfl⟩)
          · refine .inr (.inr ⟨.hole, fun s => ?_⟩)
            unfold quotedStep
            grind
      · by_cases breaks : (!verbatim && isLineBreak c) = true
        · refine .inl fun s => ?_
          unfold quotedStep
          split <;> simp_all
        · refine .inr (.inr ⟨.text, fun s => ?_⟩)
          unfold quotedStep
          split <;> simp_all

theorem quotedStep_local {verbatim interpolated : Bool}
    (h : quotedStep verbatim interpolated (u ++ z :: x) = some (step, w ++ z :: x)) :
    quotedStep verbatim interpolated (u ++ z :: y) = some (step, w ++ z :: y) := by
  cases u with
  | nil =>
    have short : (w ++ z :: x).length < (z :: x).length :=
      @Style.step_length (.quoted verbatim interpolated) _ _ _ h
    rw [List.length_append] at short
    omega
  | cons c u =>
    obtain ⟨d, s, s', front, front', behind, here⟩ := exists_second u w x y z
    rw [List.cons_append, front] at h
    rw [List.cons_append, front']
    rcases quotedStep_cons_cons verbatim interpolated c d with none | ⟨step', some⟩ | ⟨step', some⟩
    · rw [none] at h
      cases h
    · rw [some] at h ⊢
      obtain ⟨rfl, rest⟩ := Prod.mk.inj (Option.some.inj h)
      rw [behind rest]
    · rw [some] at h ⊢
      obtain ⟨rfl, rest⟩ := Prod.mk.inj (Option.some.inj h)
      rw [here rest]

theorem rawStep_local {quotes dollars : Nat}
    (h : rawStep quotes dollars (u ++ z :: x) = some (step, w ++ z :: x)) :
    rawStep quotes dollars (u ++ z :: y) = some (step, w ++ z :: y) := by
  cases u with
  | nil =>
    have short : (w ++ z :: x).length < (z :: x).length :=
      @Style.step_length (.raw quotes dollars) _ _ _ h
    rw [List.length_append] at short
    omega
  | cons c u =>
    have run : ∀ mark, afterRun mark (c :: u ++ z :: x) = w ++ z :: x →
        afterRun mark (c :: u ++ z :: y) = w ++ z :: y ∧
          runLength mark (c :: u ++ z :: y) = runLength mark (c :: u ++ z :: x) := by
      intro mark same
      obtain ⟨behind, taken⟩ := dropWhile_local same
      exact ⟨behind, by rw [runLength, taken, runLength]⟩
    by_cases quote : c = '"'
    · subst quote
      simp only [List.cons_append, rawStep, Option.some.injEq, Prod.mk.injEq] at h ⊢
      obtain ⟨behind, taken⟩ := run '"' h.2
      rw [List.cons_append] at behind taken
      rw [taken, behind]
      exact ⟨h.1, rfl⟩
    · by_cases brace : c = '{'
      · subst brace
        by_cases zero : dollars = 0
        · simp only [List.cons_append, rawStep, zero, if_true, Option.some.injEq,
            Prod.mk.injEq] at h ⊢
          exact ⟨h.1, by rw [List.append_cancel_right h.2]⟩
        · simp only [List.cons_append, rawStep, zero, if_false, Option.some.injEq,
            Prod.mk.injEq] at h ⊢
          obtain ⟨behind, taken⟩ := run '{' h.2
          rw [List.cons_append] at behind taken
          rw [taken, behind]
          exact ⟨h.1, rfl⟩
      · have other : ∀ s, rawStep quotes dollars (c :: s) = some (.text, s) := by
          intro s
          unfold rawStep
          split <;> simp_all
        simp only [List.cons_append, other, Option.some.injEq, Prod.mk.injEq] at h ⊢
        exact ⟨h.1, by rw [List.append_cancel_right h.2]⟩

theorem Style.step_local (h : style.step (u ++ z :: x) = some (step, w ++ z :: x)) :
    style.step (u ++ z :: y) = some (step, w ++ z :: y) := by
  cases style with
  | quoted => exact quotedStep_local h
  | raw => exact rawStep_local h

theorem stringOpening_append (stops : Stops z) (dollars : Nat) (verbatim : Bool) (u x : List Char) :
    stringOpening dollars verbatim (u ++ z :: x) =
      (stringOpening dollars verbatim u).map fun p => (p.1, p.2 ++ z :: x) := by
  have quote : (z == '"') = false := by simpa using stops.quote
  cases u with
  | nil =>
    rw [List.nil_append]
    unfold stringOpening
    split
    · rename_i front
      exact absurd (List.cons.inj front).1 stops.quote
    · rfl
  | cons c u =>
    by_cases opens : c = '"'
    · subst opens
      obtain ⟨behind, taken⟩ := @dropWhile_append_cons z (· == '"') quote ('"' :: u) x
      have length : runLength '"' ('"' :: (u ++ z :: x)) = runLength '"' ('"' :: u) :=
        congrArg List.length taken
      have after : afterRun '"' ('"' :: (u ++ z :: x)) = afterRun '"' ('"' :: u) ++ z :: x := behind
      simp only [List.cons_append, stringOpening, length, after]
      by_cases long : 3 ≤ runLength '"' ('"' :: u)
      · rw [if_pos long, if_pos long, Option.map_some]
      · rw [if_neg long, if_neg long, Option.map_some]
    · have none : ∀ s, stringOpening dollars verbatim (c :: s) = none := by
        intro s
        unfold stringOpening
        split <;> simp_all
      rw [List.cons_append, none, none]
      rfl

theorem opening_of_sigils (character : c ≠ '\'') (quote : c ≠ '"')
    (verbatim : c = '@' → s.head? ≠ some '"') : opening (c :: s) =
      if 0 < ((c :: s).takeWhile isSigil).count '$' && ((c :: s).takeWhile isSigil).count '@' ≤ 1 then
        stringOpening (((c :: s).takeWhile isSigil).count '$')
          (0 < ((c :: s).takeWhile isSigil).count '@') ((c :: s).dropWhile isSigil)
      else none := by
  rw [opening.eq_def]
  split <;> simp_all

theorem opening_append (stops : Stops z) (h : u ≠ []) (x : List Char) :
    opening (u ++ z :: x) = (opening u).map fun p => (p.1, p.2 ++ z :: x) := by
  obtain ⟨c, u, rfl⟩ := List.exists_cons_of_ne_nil h
  by_cases character : c = '\''
  · subst character
    rfl
  · by_cases quote : c = '"'
    · subst quote
      exact stringOpening_append stops 0 false ('"' :: u) x
    · by_cases verbatim : c = '@' ∧ u.head? = some '"'
      · obtain ⟨rfl, head⟩ := verbatim
        obtain ⟨u, rfl⟩ := List.head?_eq_some_iff.mp head
        rfl
      · rw [not_and] at verbatim
        have verbatim' : c = '@' → (u ++ z :: x).head? ≠ some '"' := by
          intro at_
          cases u with
          | nil => simpa using stops.quote
          | cons d u => exact verbatim at_
        obtain ⟨behind, taken⟩ := dropWhile_append_cons stops.sigil (c :: u) x
        rw [opening_of_sigils character quote verbatim, List.cons_append,
          opening_of_sigils character quote verbatim', ← List.cons_append, behind, taken,
          stringOpening_append stops]
        split <;> rfl

theorem holeStep_single {d : Char} (line : c = '/' → d ≠ '/') (block : c = '/' → d ≠ '*') :
    ∃ step, ∀ opened s, opening (c :: d :: s) = none →
      holeStep opened (c :: d :: s) = .ok (step, d :: s) := by
  by_cases opens : c = '{'
  · subst opens
    exact ⟨.openBrace, fun opened s none => by simp [holeStep, none]⟩
  · by_cases closes : c = '}'
    · subst closes
      exact ⟨.closeBrace, fun opened s none => by simp [holeStep, none]⟩
    · refine ⟨.text, fun opened s none => ?_⟩
      unfold holeStep
      rw [none]
      simp only
      split <;> simp_all

theorem holeStep_local (stops : Stops z) {opened' : List Char} {step : HoleStep}
    (h : holeStep opened (u ++ z :: x) = .ok (step, w ++ z :: x)) :
    holeStep opened' (u ++ z :: y) = .ok (step, w ++ z :: y) := by
  rcases u with _ | ⟨c, u⟩
  · have short := holeStep_length h
    rw [List.length_append, List.nil_append] at short
    omega
  have opens := opening_append stops (List.cons_ne_nil c u)
  cases literal : opening (c :: u) with
  | some p =>
    obtain ⟨kind, rest⟩ := p
    unfold holeStep at h ⊢
    rw [opens, literal] at h ⊢
    cases kind with
    | character =>
      simp only [Option.map_some] at h ⊢
      split at h
      · cases h
      · rename_i ended
        cases h
        rw [afterCharacter_local ended]
    | string style =>
      simp only [Option.map_some, Except.ok.injEq, Prod.mk.injEq] at h ⊢
      exact ⟨h.1, by rw [List.append_cancel_right h.2]⟩
  | none =>
    have none : ∀ x, opening (c :: (u ++ z :: x)) = none := by
      intro x
      rw [← List.cons_append, opens, literal]
      rfl
    by_cases comment : c = '/' ∧ ∃ d, (d = '/' ∨ d = '*') ∧ u.head? = some d
    · obtain ⟨rfl, d, kind, head⟩ := comment
      obtain ⟨u, rfl⟩ := List.head?_eq_some_iff.mp head
      unfold holeStep at h ⊢
      rw [List.cons_append, none] at h ⊢
      rcases kind with rfl | rfl
      · simp only [List.cons_append, Except.ok.injEq, Prod.mk.injEq] at h ⊢
        exact ⟨h.1, (dropWhile_local h.2).1⟩
      · simp only [List.cons_append] at h ⊢
        split at h
        · cases h
        · rename_i ended
          cases h
          rw [afterBlockComment_local ended]
    · rw [not_and] at comment
      obtain ⟨d, s, s', front, front', behind, here⟩ := exists_second u w x y z
      have second : ∀ e, e = '/' ∨ e = '*' → c = '/' → d ≠ e := by
        rintro e kind slash rfl
        cases u with
        | nil =>
          obtain rfl := (List.cons.inj front).1
          exact kind.elim stops.slash stops.star
        | cons d' u =>
          obtain rfl := (List.cons.inj front).1
          exact comment slash ⟨d', kind, rfl⟩
      obtain ⟨step', passes⟩ := holeStep_single (second '/' (.inl rfl)) (second '*' (.inr rfl))
      have none' := none y
      have none := none x
      rw [List.cons_append, front] at h
      rw [List.cons_append, front']
      rw [front] at none
      rw [front'] at none'
      rw [passes opened s none] at h
      rw [passes opened' s' none']
      obtain ⟨rfl, rest⟩ := Prod.mk.inj (Except.ok.inj h)
      rw [here rest]

/-- A frame without the input that is kept for messages. -/
def Frame.bare : Frame → Frame
  | .string style _ => .string style []
  | .hole braces _ => .hole braces []

theorem bare_string (h : stack.map Frame.bare = (.string style opened :: outer).map Frame.bare) :
    ∃ opened' outer', stack = .string style opened' :: outer' ∧
      outer'.map Frame.bare = outer.map Frame.bare := by
  rcases stack with _ | ⟨_ | _, outer'⟩ <;> simp_all [Frame.bare]

theorem bare_hole {braces : Nat}
    (h : stack.map Frame.bare = (.hole braces opened :: outer).map Frame.bare) :
    ∃ opened' outer', stack = .hole braces opened' :: outer' ∧
      outer'.map Frame.bare = outer.map Frame.bare := by
  rcases stack with _ | ⟨_ | _, outer'⟩ <;> simp_all [Frame.bare]

theorem StringStep.bare_frames (h : outer'.map Frame.bare = outer.map Frame.bare) (style : Style)
    (opened opened' : List Char) (step : StringStep) :
    (step.frames style opened' outer').map Frame.bare =
      (step.frames style opened outer).map Frame.bare := by
  cases step <;> simp [frames, Frame.bare, h]

theorem HoleStep.bare_frames (h : outer'.map Frame.bare = outer.map Frame.bare) (s s' : List Char)
    (braces : Nat) (opened opened' : List Char) (step : HoleStep) :
    (step.frames s' braces opened' outer').map Frame.bare =
      (step.frames s braces opened outer).map Frame.bare := by
  cases step with
  | closeBrace => cases braces <;> simp [frames, Frame.bare, h]
  | _ => simp [frames, Frame.bare, h]

theorem scan_string (h : style.step s = some (step, rest)) (opened : List Char)
    (outer : List Frame) :
    scan (.string style opened :: outer) s = scan (step.frames style opened outer) rest := by
  rw [scan]
  split <;> simp_all

theorem scan_hole {step : HoleStep} (h : holeStep opened s = .ok (step, rest)) (braces : Nat)
    (outer : List Frame) :
    scan (.hole braces opened :: outer) s = scan (step.frames s braces opened outer) rest := by
  rw [scan]
  split <;> simp_all

theorem scan_local (stops : Stops z) {stack' : List Frame}
    (bare : stack'.map Frame.bare = stack.map Frame.bare)
    (h : scan stack (u ++ z :: x) = .ok (w ++ z :: x)) :
    scan stack' (u ++ z :: y) = .ok (w ++ z :: y) := by
  -- what is scanned later ends in front of the mark as well
  have front : ∀ {stack : List Frame} {rest : List Char}, scan stack rest = .ok (w ++ z :: x) →
      ∃ v, rest = v ++ z :: x := by
    intro stack rest scanned
    obtain ⟨v, eq⟩ := (suffix_cons_self w).trans (scan_suffix scanned)
    exact ⟨v, eq.symm⟩
  generalize ahead : u ++ z :: x = s at h
  fun_induction scan stack s generalizing u stack' with
  | case1 s =>
    obtain rfl : stack' = [] := by simpa using bare
    subst ahead
    obtain rfl := List.append_cancel_right (Except.ok.inj h)
    rw [scan]
  | case2 => cases h
  | case3 s style opened outer step rest passed ih =>
    obtain ⟨opened', outer', rfl, outerBare⟩ := bare_string bare
    obtain ⟨v, rfl⟩ := front h
    subst ahead
    rw [scan_string (Style.step_local passed)]
    exact ih (step.bare_frames outerBare ..) rfl h
  | case4 => cases h
  | case5 s braces opened outer step rest passed ih =>
    obtain ⟨opened', outer', rfl, outerBare⟩ := bare_hole bare
    obtain ⟨v, rfl⟩ := front h
    subst ahead
    rw [scan_hole (holeStep_local stops passed)]
    exact ih (step.bare_frames outerBare ..) rfl h

theorem after_local (stops : Stops z) (h : after (c :: (u ++ z :: x)) = .ok (some (w ++ z :: x))) :
    after (c :: (u ++ z :: y)) = .ok (some (w ++ z :: y)) := by
  have opens := opening_append stops (List.cons_ne_nil c u)
  simp only [List.cons_append] at opens
  unfold after at h ⊢
  rw [opens] at h ⊢
  cases literal : opening (c :: u) with
  | none => simp [literal] at h
  | some p =>
    obtain ⟨kind, rest⟩ := p
    rw [literal] at h
    cases kind with
    | character =>
      simp only [Option.map_some] at h ⊢
      split at h
      · cases h
      · rename_i ended
        cases h
        rw [afterCharacter_local ended]
    | string style =>
      simp only [Option.map_some] at h ⊢
      split at h
      · cases h
      · rename_i scanned
        cases h
        rw [scan_local stops (by rfl) scanned]

theorem after_none_local (stops : Stops z) (h : after (c :: (u ++ z :: x)) = .ok none) :
    after (c :: (u ++ z :: y)) = .ok none := by
  have opens := opening_append stops (List.cons_ne_nil c u)
  simp only [List.cons_append] at opens
  unfold after at h ⊢
  rw [opens] at h ⊢
  cases literal : opening (c :: u) with
  | none => rfl
  | some p =>
    obtain ⟨kind, rest⟩ := p
    rw [literal] at h
    cases kind <;> simp only [Option.map_some] at h <;> split at h <;> cases h

end Literal

end Locality

end CSharpTidy
