import CSharpTidy.Proofs.SpanFlow

/- Two readers on one text. The first one has cut it into pieces, and the second one comes by each
   place where a piece ends, whether the piece is live to it or dead. Only a lexeme or a comment of
   the second reader could reach over such a place, and then a line inside of it would look like a
   directive. -/
namespace CSharpTidy

variable {rest s blanks tail s' u : List Char} {c : Conditional} {r r' : Reader} {as : List Atom}
  {kind : DirectiveKind} {a : Atom} {b : Char}

section
variable {α : Type} {note : Atom → Option α} {ns : List α} {d d' : Conditional}

theorem Atom.Passed.unmasked (h : a.Passed rest r r') (placed : r.place ≠ .masked)
    (unmarked : '\ufeff' ∉ a.text) : r'.place ≠ .masked := by
  cases h with
  | space => exact Place.after_ne_masked placed unmarked
  | disabled => exact Place.after_ne_masked (by simp) unmarked
  | _ => simp

theorem Atom.Passed.watch (h : a.Passed rest r r') (seen : a.Seen note d ns d')
    (placed : r.place ≠ .masked ∨ ∃ l, a = .token l) :
    Reach note ⟨r.place, d⟩ (a.text ++ rest) ns ⟨r'.place, d'⟩ rest := by
  cases h with
  | @space t kind nonempty spaces =>
    obtain ⟨rfl, rfl⟩ := (Trivia.seen_of_isBlank
      (by simp [Trivia.isBlank, Trivia.isWhitespace, kind])).mp seen
    exact .spaces spaces r.place d' rest
  | @lineEnd t kind breaks =>
    obtain ⟨rfl, rfl⟩ := (Trivia.seen_of_isBlank
      (by simp [Trivia.isBlank, Trivia.isEndOfLine, kind])).mp seen
    exact .lineEnd breaks r.place d' rest
  | comment active found =>
    obtain ⟨remark, ends⟩ := Trivia.isRemark_of_found found
    exact .comment remark seen r.place ends
  | @directive t body conditional kind hash unbroken ends opens counts applied =>
    refine .directive ⟨kind, rfl, ⟨body, hash⟩, unbroken⟩ seen opens (fun _ => ?_) ends
    have visible := placed.resolve_right (by simp)
    cases place : r.place <;> simp_all
  | @disabled t kind nonempty inactive starts passed =>
    obtain ⟨-, ends, reach⟩ := (Trivia.seen_of_disabled kind).mp seen
    rw [starts, ends]
    exact reach rest
  | @token l a s active front solid unhashed comment found =>
    obtain ⟨even, noted, rfl⟩ := seen
    subst noted
    cases live : d'.isActive with
    | true =>
      have passed : Atom.Passed rest ⟨r.place, d'⟩ (.token l) ⟨.inside, d'⟩ :=
        .token live front solid unhashed comment found
      refine ⟨_, passed.steps, ?_⟩
      rw [List.filter_cons_of_pos rfl]
      cases noted : note (.token l) <;> simp [noted]
    | false =>
      have ends := Piece.lexeme_endsSolid found solid
      have lines := even live
      obtain ⟨t, text, rfl⟩ := Piece.lexeme_cons front found
      rw [isEven, text] at lines
      rw [Atom.text, text]
      exact .hidden live (fun hash => by simp [unhashed hash]) solid (text ▸ ends) lines rest

theorem Trace.watch (h : Trace r as s r' s') (sees : Sees note d as ns d')
    (placed : r.place ≠ .masked) (unmarked : '\ufeff' ∉ as.flatMap Atom.text) :
    Reach note ⟨r.place, d⟩ s ns ⟨r'.place, d'⟩ s' := by
  induction h generalizing d ns with
  | nil =>
    cases sees
    exact .refl _ _
  | cons first whole _ ih =>
    rw [List.flatMap_cons, List.mem_append, not_or] at unmarked
    cases sees with
    | cons seen more =>
      rw [whole]
      exact (first.watch seen (.inl placed)).trans
        (ih more (first.unmasked placed unmarked.1) unmarked.2)

theorem PlacedToken.stretch_watched {own : List PlacedToken} (h : Trace r (stretch own) s r' s')
    (closes : Closes own) (unhashed : Unhashed own) (sees : Sees note d (stretch own) ns d')
    (unmarked : '\ufeff' ∉ (join own).toList) : Passes note d (join own).toList ns d' := by
  intro p y
  have traced := stretch_traced h closes unhashed p y
  rw [← text_stretch] at unmarked
  have nonempty : own ≠ [] := by
    rintro rfl
    obtain ⟨t, z, last, -⟩ := closes
    cases last
  obtain ⟨first, more, rfl⟩ := List.exists_cons_of_ne_nil nonempty
  obtain ⟨rest, starts⟩ := stretch_cons first more
  rw [starts] at traced sees unmarked
  rw [List.flatMap_cons, List.mem_append, not_or] at unmarked
  cases traced with
  | cons passed whole traced =>
    cases sees with
    | cons seen sees =>
      rw [whole]
      refine (passed.watch seen (.inr ⟨_, rfl⟩)).trans (traced.watch sees ?_ unmarked.2)
      cases passed with
      | token => simp

end

/-- What a text has to be so that a reader which hides it finds no directive in it. -/
def Atom.isEven : Atom → Bool
  | .trivia t => !t.isComment || CSharpTidy.isEven t.text
  | .token l => CSharpTidy.isEven l.text

/-- A text read to its end, with no line inside of a piece that looks like a directive. -/
inductive Glides : Reader → List Char → List Atom → Prop
  | done {r : Reader} (closed : r.conditional.branches = []) : Glides r [] []
  | cons {r : Reader} {c : Char} {s : List Char} {p : Passed} {as : List Atom}
      (first : r.step c s = some p)
      (even : ∀ text, text ++ p.rest = c :: s → hashLines opensNothing .inside text)
      (more : Glides p.reader p.rest as) : Glides r (c :: s) (p.found ++ as)

namespace Glides

variable {r r' : Reader} {s s' : List Char} {as bs : List Atom}

theorem of_steps (h : Glides r s as) (steps : Steps r s bs r' s') :
    ∃ rest, as = bs ++ rest ∧ Glides r' s' rest := by
  induction steps generalizing as with
  | refl => exact ⟨as, rfl, h⟩
  | cons first _ ih =>
    cases h with
    | cons first' _ more =>
      rw [first] at first'
      cases first'
      obtain ⟨rest, rfl, glides⟩ := ih more
      exact ⟨rest, (List.append_assoc ..).symm, glides⟩

theorem pass {c : Char} (first : r.step c s = some (r.pass c s))
    (more : Glides ⟨r.place.next c, r.conditional⟩ s as) : Glides r (c :: s) as := by
  refine .cons first (fun text whole => ?_) more
  obtain rfl : text = [c] := List.append_cancel_right (show text ++ s = [c] ++ s from whole)
  simp [hashLines]

variable {t : List Char} {p : Place}

theorem passAll (steps : ∀ u a v, t = u ++ a :: v →
      Reader.step ⟨p.after u, c⟩ a (v ++ s) = some (Reader.pass ⟨p.after u, c⟩ a (v ++ s)))
    (more : Glides ⟨p.after t, c⟩ s as) : Glides ⟨p, c⟩ (t ++ s) as := by
  induction t generalizing p with
  | nil => exact more
  | cons a t ih =>
    refine .pass (steps [] a t rfl) (ih (fun u b v whole => ?_) more)
    exact steps (a :: u) b v (by rw [whole, List.cons_append])

theorem void (active : c.isActive) (void : ∀ a ∈ t, isVoid a) (more : Glides ⟨p.after t, c⟩ s as) :
    Glides ⟨p, c⟩ (t ++ s) as := by
  refine .passAll (fun u a v whole => ?_) more
  simp [Reader.step, Reader.live, active, void a (by simp [whole])]

theorem quiet (inactive : c.isActive = false) (quiet : Quiet s p t)
    (more : Glides ⟨p.after t, c⟩ s as) : Glides ⟨p, c⟩ (t ++ s) as := by
  refine .passAll (fun u a v whole => ?_) more
  rw [whole, quiet_append] at quiet
  have passes := quiet.2.1
  simp only [Reader.step, inactive, Bool.false_eq_true, if_false, Reader.dead]
  rw [if_neg]
  simpa [and_assoc] using passes

end Glides

theorem Atom.Passed.glides (h : a.Passed rest r r') (even : a.isEven) (more : Glides r' rest as) :
    Glides r (a.text ++ rest) ([a].filter Atom.counts ++ as) := by
  cases whole : a.isWhole with
  | true =>
    obtain ⟨c, s, front, first⟩ := h.step whole
    rw [front]
    refine .cons first (fun text same => ?_) more
    obtain rfl : text = a.text := List.append_cancel_right (same.trans front.symm)
    cases h with
    | space kind | lineEnd kind | disabled kind =>
      simp [isWhole, Trivia.isComment, Trivia.isDirective, kind] at whole
    | token => exact even
    | @comment t _ found =>
      have comment : t.isComment := Piece.comment?_isComment found t.text
      simp only [isEven, comment, Bool.not_true, Bool.false_or] at even
      exact even
    | directive kind hash unbroken => exact hashLines_of_inline unbroken
  | false =>
    obtain ⟨rfl, uncounted, void, quiet⟩ := h.soft whole
    rw [List.filter_cons_of_neg (by simp [uncounted])]
    cases active : r.conditional.isActive with
    | true => exact .void active (void active) more
    | false => exact .quiet active (quiet active) more

theorem Trace.glides (h : Trace r as s r' []) (even : ∀ a ∈ as, a.isEven)
    (closed : r'.conditional.branches = []) : Glides r s (as.filter Atom.counts) := by
  generalize ended : ([] : List Char) = s' at h
  induction h with
  | nil =>
    subst ended
    exact .done closed
  | @cons r r₁ r' a as s s₁ s' first whole _ ih =>
    rw [List.forall_mem_cons] at even
    rw [whole, ← List.singleton_append, List.filter_append]
    exact first.glides even.1 (ih even.2 closed ended)

theorem EndsSolid.stays {text behind : List Char} (h : EndsSolid text)
    (even : hashLines opensNothing .inside text) (whole : text ++ behind = u ++ b :: rest)
    (breaks : isLineBreak b) (ahead : rest = blanks ++ '#' :: tail)
    (blank : ∀ a ∈ blanks, Text.isBlank a) (switches : Reader.switches ('#' :: tail)) :
    ∃ w, behind = w ++ b :: rest ∧ u = text ++ w := by
  -- otherwise the piece ends on a blank line, or the directive is a line inside of it
  have voids : ∀ more, (∀ a ∈ more, Text.isBlank a) → text ≠ u ++ b :: more := by
    rintro more void rfl
    have inline := h.inline_of_void (List.forall_mem_cons.mpr
      ⟨by simp [isVoid, breaks], fun a mem => isVoid_of_isBlank (void a mem)⟩) b (by simp)
    rw [breaks] at inline
    cases inline
  obtain ⟨w, inside, left⟩ | ⟨more, longer, left⟩ := List.append_eq_append_iff.mp whole
  · exact ⟨w, left, inside⟩
  cases more with
  | nil => exact ⟨[], left.symm, by simpa using longer.symm⟩
  | cons c more =>
    obtain ⟨rfl, after⟩ := List.cons.inj left
    rw [ahead] at after
    obtain ⟨line, rfl, cut⟩ | ⟨fewer, short, -⟩ := List.append_eq_append_iff.mp after
    · cases line with
      | nil => exact absurd longer (voids _ (by simpa using blank))
      | cons hash line =>
        obtain rfl : '#' = hash := (List.cons.inj cut).1
        have split : text = (u ++ b :: blanks) ++ '#' :: line := by simp [longer]
        have placed : Place.inside.after (u ++ b :: blanks) = .start := by
          rw [Place.after_append, Place.after_cons, Place.next_of_isLineBreak breaks,
            Place.after_blank blank]
        rw [split] at even
        have here := hashLines_right even
        rw [placed, hashLines, Bool.and_eq_true] at here
        obtain ⟨broken, plain⟩ : _ ∧ _ := by simpa [opensNothing] using here.1
        have same := Reader.switches_of_broken (s := '#' :: line) (by simpa using broken) behind
        rw [cut, same, plain] at switches
        cases switches
    · exact absurd longer (voids _ fun a mem => blank a (by simp [short, mem]))

theorem Conditional.apply_of_unconditional {c' : Conditional} {line : List Char}
    (plain : kind.isConditional = false) (h : c.apply kind line = .ok c') :
    c'.isActive = c.isActive ∧ (kind.changesSymbols = false → c' = c) := by
  cases apply_effect h with
  | ignored => exact ⟨rfl, fun _ => rfl⟩
  | defined | undefined => exact ⟨rfl, fun keeps => by cases keeps⟩
  | _ => cases plain

theorem Literal.cut_before_break (breaks : isLineBreak b) (u rest : List Char) :
    (u ++ b :: rest).takeWhile (fun c => !isLineBreak c) = u.takeWhile (fun c => !isLineBreak c) ∧
      (u ++ b :: rest).dropWhile (fun c => !isLineBreak c) =
        u.dropWhile (fun c => !isLineBreak c) ++ b :: rest := by
  induction u with
  | nil => simp [breaks]
  | cons a u ih =>
    rw [List.cons_append, List.takeWhile_cons, List.dropWhile_cons, List.takeWhile_cons,
      List.dropWhile_cons, ih.1, ih.2]
    split <;> simp

namespace Reader

variable {r : Reader} {a b : Char} {s u w x rest : List Char} {p : Passed}

theorem live_local (breaks : isLineBreak b) (h : r.live a (u ++ b :: x) = some p)
    (left : p.rest = w ++ b :: x) (y : List Char) :
    r.live a (u ++ b :: y) = some { p with rest := w ++ b :: y } := by
  have mark := Mark.of_isLineBreak breaks
  unfold live at h ⊢
  split at h
  · rename_i void
    cases h
    obtain rfl : u = w := List.append_cancel_right left
    rw [if_pos void]
    rfl
  rename_i solid
  rw [if_neg solid]
  split at h
  · rename_i hash
    rw [if_pos hash]
    simp only [directive] at h ⊢
    split at h
    · cases h
    · rename_i applied
      cases h
      have ended : (a :: u ++ b :: x).dropWhile (fun c => !isLineBreak c) = w ++ b :: x := left
      obtain ⟨behind, taken⟩ := dropWhile_local (y := y) ended
      rw [List.cons_append, List.cons_append] at taken
      rw [List.cons_append] at behind
      simp only [taken, applied, Literal.afterLine, behind]
  · rename_i hash
    rw [if_neg hash]
    split at h
    · cases h
    · rename_i found
      cases h
      rw [← List.cons_append] at found
      rw [← List.cons_append, Piece.comment?_local found left y]
    · rename_i none
      split at h
      · cases h
      · rename_i found
        cases h
        rw [← List.cons_append] at none
        rw [← List.cons_append, Piece.comment?_none_local mark.toStops none y,
          Piece.lexeme_local mark found left y]

theorem live_piece (h : r.live a s = some p) (solid : isVoid a = false)
    (unhashed : a = '#' → r.place = .inside) :
    p.reader = ⟨.inside, r.conditional⟩ ∧ ∃ text, text ++ p.rest = a :: s ∧ EndsSolid text := by
  have noHash : (a == '#' && r.place != .inside) = false := by
    by_cases hash : a = '#'
    · simp [unhashed hash]
    · simp [hash]
  simp only [live, solid, noHash, Bool.false_eq_true, if_false] at h
  split at h
  · cases h
  · rename_i found
    cases h
    exact ⟨rfl, _, Piece.comment?_append found, Piece.comment?_endsSolid found⟩
  · split at h
    · cases h
    · rename_i found
      cases h
      exact ⟨rfl, _, Piece.lexeme_append found, Piece.lexeme_endsSolid found solid⟩

theorem live_directive (h : r.live '#' s = some p) (opens : r.place ≠ .inside) :
    ∃ d, r.conditional.apply (DirectiveLine.kind (('#' :: s).takeWhile fun c => !isLineBreak c))
      (('#' :: s).takeWhile fun c => !isLineBreak c) = .ok d ∧ p.reader = ⟨.inside, d⟩ ∧
        p.rest = Literal.afterLine ('#' :: s) := by
  have solid : isVoid '#' = false := by decide
  simp only [live, solid, Bool.false_eq_true, if_false, beq_self_eq_true, Bool.true_and,
    bne_iff_ne, opens, ne_eq, not_false_eq_true, if_true, directive] at h
  split at h
  · cases h
  · rename_i applied
    cases h
    exact ⟨_, applied, rfl, rfl⟩

/-- A live step in front of a directive that switches ends in front of the line break before it. -/
theorem live_stays (h : r.live a (u ++ b :: rest) = some p) (breaks : isLineBreak b)
    (ahead : rest = blanks ++ '#' :: tail) (blank : ∀ c ∈ blanks, Text.isBlank c)
    (switches : Reader.switches ('#' :: tail))
    (even : ∀ text, text ++ p.rest = a :: (u ++ b :: rest) → hashLines opensNothing .inside text)
    (active : r.conditional.isActive) (quiet : Quiet (b :: rest) r.place (a :: u))
    (placed : r.place ≠ .masked) (unmarked : '\ufeff' ∉ a :: u) :
    ∃ text w, a :: u = text ++ w ∧ p.rest = w ++ b :: rest ∧
      p.reader.place = r.place.after text ∧ p.reader.conditional.isActive ∧
      (hashLines keepsSymbols r.place (a :: u ++ [b]) → p.reader.conditional = r.conditional) := by
  cases void : isVoid a with
  | true =>
    simp only [live, void, if_true, Option.some.injEq] at h
    subst h
    exact ⟨[a], u, rfl, rfl, rfl, active, fun _ => rfl⟩
  | false =>
    by_cases hash : a = '#' ∧ r.place ≠ .inside
    · obtain ⟨rfl, opens⟩ := hash
      have start : r.place = .start := by
        cases place : r.place <;> simp_all
      obtain ⟨d, applied, reader, left⟩ := live_directive h opens
      have line := fun y => Literal.cut_before_break breaks ('#' :: u) y
      rw [← List.cons_append, (line rest).1] at applied
      have plain : (DirectiveLine.kind (('#' :: u).takeWhile
          fun c => !isLineBreak c)).isConditional = false := by
        have notHere := quiet.1
        rw [start, Reader.switches, ← List.cons_append, (line rest).1] at notHere
        simpa using notHere
      have keeps := Conditional.apply_of_unconditional plain applied
      refine ⟨('#' :: u).takeWhile fun c => !isLineBreak c,
        ('#' :: u).dropWhile fun c => !isLineBreak c, List.takeWhile_append_dropWhile.symm, ?_, ?_,
        ?_, fun lines => ?_⟩
      · rw [left, ← List.cons_append]
        exact (line rest).2
      · have inline := Literal.line_unbroken u
        rw [reader, start, List.takeWhile_cons_of_pos (by decide), Place.after_cons,
          Place.next_of_solid void, Place.after_inside inline]
      · rw [reader]
        exact keeps.1.trans active
      · rw [start, List.cons_append, hashLines, ← List.cons_append, keepsSymbols,
          (line []).1] at lines
        rw [reader]
        exact keeps.2 (by simpa using (Bool.and_eq_true_iff.mp lines).1)
    · have unhashed : a = '#' → r.place = .inside := fun same => by
        by_contra opens
        exact hash ⟨same, opens⟩
      obtain ⟨reader, text, whole, solid⟩ := live_piece h void unhashed
      obtain ⟨w, left, inside⟩ := solid.stays (u := a :: u) (even text whole) whole breaks ahead
        blank switches
      refine ⟨text, w, inside, left, ?_, ?_, fun _ => by rw [reader]⟩
      · rw [reader, Place.after_of_endsSolid solid]
      · rw [reader]
        exact active

end Reader

/-- A text that is dead to one reader, between directives that switch, is read by the other one up
to its end, whatever stands behind it. -/
theorem Glides.cross (h : Glides r s as) (whole : s = u ++ b :: rest) (breaks : isLineBreak b)
    (ahead : rest = blanks ++ '#' :: tail) (blank : ∀ a ∈ blanks, Text.isBlank a)
    (switches : Reader.switches ('#' :: tail)) (active : r.conditional.isActive)
    (quiet : Quiet (b :: rest) r.place u) (placed : r.place ≠ .masked) (unmarked : '\ufeff' ∉ u) :
    ∃ found more d, as = found ++ more ∧ (∀ y, Steps r (u ++ b :: y) found ⟨.start, d⟩ y) ∧
      Glides ⟨.start, d⟩ rest more ∧
      (hashLines keepsSymbols r.place (u ++ [b]) → d = r.conditional) := by
  induction h generalizing u with
  | done => simp at whole
  | @cons r c s p as first even more ih =>
    have live : ∀ y, r.step c y = r.live c y := fun y => by simp [Reader.step, active]
    rw [live] at first
    cases u with
    | nil =>
      obtain ⟨rfl, rfl⟩ := List.cons.inj whole
      have pass : ∀ y, r.live c y = some (r.pass c y) := fun y => by
        simp [Reader.live, isVoid, breaks]
      have placed : r.place.next c = .start := Place.next_of_isLineBreak breaks _
      rw [pass] at first
      cases first
      rw [Reader.pass, placed] at more
      refine ⟨[], as, r.conditional, rfl, fun y => ?_, more, fun _ => rfl⟩
      have step := Steps.single ((live y).trans (pass y))
      rwa [Reader.pass, placed] at step
    | cons a u =>
      obtain ⟨rfl, rfl⟩ := List.cons.inj whole
      obtain ⟨text, w, inside, left, place, still, keeps⟩ := Reader.live_stays first breaks ahead
        blank switches even active quiet placed unmarked
      rw [inside, List.mem_append, not_or] at unmarked
      rw [inside, quiet_append, ← place] at quiet
      have placed' : p.reader.place ≠ .masked := place ▸ Place.after_ne_masked placed unmarked.1
      obtain ⟨found, more', d, rfl, steps, glides, calm⟩ :=
        ih left still quiet.2 placed' unmarked.2
      refine ⟨p.found ++ found, more', d, (List.append_assoc ..).symm, fun y => ?_, glides,
        fun lines => ?_⟩
      · have step := (live _).trans (Reader.live_local breaks first left y)
        exact Steps.cons (p := ⟨p.found, p.reader, w ++ b :: y⟩) step (steps y)
      · rw [← keeps lines]
        refine calm ?_
        rw [inside, List.append_assoc] at lines
        rw [place]
        exact hashLines_right lines

theorem Conditional.apply_inactive (inactive : c.isActive = false)
    (plain : kind.isConditional = false) (line : List Char) : c.apply kind line = .ok c := by
  have unread : ∀ change, changeSymbol (DirectiveLine.argument line) change c = .ok () c := by
    intro change
    rw [changeSymbol, get_bind, inactive]
    rfl
  cases kind with
  | define => simp [apply, update, unread]
  | undef => simp [apply, update, unread]
  | ifTest => cases plain
  | elifTest => cases plain
  | elseArm => cases plain
  | endIf => cases plain
  | _ => rfl

section
variable {α : Type} {note : Atom → Option α} {d : Conditional} {rest : List Char} {r r' : Reader}
  {t : Trivia} {bs : List Atom}

theorem Glides.directive (h : Glides ⟨r.place, d⟩ (t.text.toList ++ rest) bs)
    (line : t.IsDirective kind) (ends : AtBreak rest) (opens : r.place ≠ .inside)
    (placed : r.place ≠ .masked) : ∃ ns d', t.Seen note d ns d' := by
  obtain ⟨kindEq, rfl, ⟨body, hash⟩, unbroken⟩ := line
  have start : r.place = .start := by
    cases place : r.place <;> simp_all
  obtain ⟨d', applied⟩ : ∃ d', d.apply (DirectiveLine.kind t.text.toList) t.text.toList =
      .ok d' := by
    by_cases counts : d.isActive = false ∧
        (DirectiveLine.kind t.text.toList).isConditional = false
    · exact ⟨d, Conditional.apply_inactive counts.1 counts.2 _⟩
    · have whole := (Literal.takeWhile_line unbroken ends).1
      rw [hash, List.cons_append] at h whole
      cases h with
      | cons first =>
        have counts' : d.isActive = false → r.place = .start ∧
            Reader.switches ('#' :: (body ++ rest)) := by
          intro inactive
          rw [Reader.switches, whole, ← hash]
          exact ⟨start, by simpa [inactive] using counts⟩
        rw [Reader.step_directive (r := ⟨r.place, d⟩) opens counts', Reader.directive] at first
        simp only [whole, ← hash] at first
        split at first
        · cases first
        · exact ⟨_, by assumption⟩
  exact ⟨_, d', (Trivia.seen_of_directive kindEq).mpr ⟨applied, rfl⟩⟩

theorem Glides.disabled (h : Glides ⟨.start, d⟩ (t.text.toList ++ rest) bs)
    (kind : t.kind = .disabled) (nonempty : t.text.toList ≠ [])
    (passed : Piece.afterDisabled (t.text.toList ++ rest) = rest) (goesOn : rest ≠ [])
    (unmarked : '\ufeff' ∉ t.text.toList) : ∃ ns d', t.Seen note d ns d' := by
  have dead := Trivia.isDead_of_passed kind passed goesOn
  cases active : d.isActive with
  | false =>
    refine ⟨[], d, (Trivia.seen_of_disabled kind).mpr ⟨fun _ => rfl, dead.ends, fun y => ?_⟩⟩
    have steps := Steps.quiet active (dead.quiet y)
    rw [dead.ends] at steps
    exact ⟨[], steps, rfl⟩
  | true =>
    have whole : t.text.toList ++ Piece.afterDisabled (t.text.toList ++ rest) =
        t.text.toList ++ rest := by rw [passed]
    obtain ⟨u, b, text, breaks⟩ := (Piece.quiet_disabled whole).2 (passed.symm ▸ goesOn) nonempty
    have conditional := (Piece.afterDisabled_cases (t.text.toList ++ rest)).resolve_left
      (passed.symm ▸ goesOn)
    rw [passed] at conditional
    obtain ⟨blanks, tail, ahead, blank, switches⟩ := Piece.atConditional_front conditional
    have quiet := dead.quiet rest
    rw [text, quiet_append] at quiet
    rw [text, List.append_assoc] at h
    rw [text, List.mem_append, not_or] at unmarked
    obtain ⟨found, more, d', -, steps, -, calm⟩ := h.cross rfl breaks ahead
      (fun a mem => (blank a mem).1) switches active quiet.1 (by simp) unmarked.1
    refine ⟨found.filterMap note, d', (Trivia.seen_of_disabled kind).mpr
      ⟨fun still => ?_, dead.ends, fun y => ⟨found, ?_, rfl⟩⟩⟩
    · have lines := still.resolve_left (by simp [active])
      rw [isCalm, text] at lines
      exact calm lines
    · rw [text, List.append_assoc]
      exact steps y

theorem Glides.seen (h : Glides ⟨r.place, d⟩ (a.text ++ rest) bs) (passed : a.Passed rest r r')
    (even : a.isEven) (placed : r.place ≠ .masked) (unmarked : '\ufeff' ∉ a.text)
    (goesOn : r'.conditional.isActive = false → rest ≠ []) : ∃ ns d', a.Seen note d ns d' := by
  cases passed with
  | space kind => exact ⟨[], d, (Trivia.seen_of_isBlank
      (by simp [Trivia.isBlank, Trivia.isWhitespace, kind])).mpr ⟨rfl, rfl⟩⟩
  | lineEnd kind => exact ⟨[], d, (Trivia.seen_of_isBlank
      (by simp [Trivia.isBlank, Trivia.isEndOfLine, kind])).mpr ⟨rfl, rfl⟩⟩
  | @comment t _ found =>
    have comment : t.isComment := Piece.comment?_isComment found t.text
    simp only [Atom.isEven, comment, Bool.not_true, Bool.false_or] at even
    exact ⟨[], d, (Trivia.seen_of_isComment comment).mpr ⟨fun _ => even, rfl, rfl⟩⟩
  | directive kind hash unbroken ends opens =>
    exact h.directive ⟨kind, rfl, ⟨_, hash⟩, unbroken⟩ ends opens placed
  | disabled kind nonempty inactive starts passed =>
    rw [starts] at h
    exact h.disabled kind nonempty passed (goesOn inactive) unmarked
  | token => exact ⟨_, d, fun _ => even, rfl, rfl⟩

end

/-- A second reader sees all pieces that the first one has cut. -/
theorem Trace.sees {α : Type} {note : Atom → Option α} {bs : List Atom} {d : Conditional}
    (h : Trace r as s r' s') (live : r'.conditional.isActive) (even : ∀ a ∈ as, a.isEven)
    (placed : r.place ≠ .masked) (unmarked : '\ufeff' ∉ as.flatMap Atom.text)
    (glides : Glides ⟨r.place, d⟩ s bs) :
    ∃ ns more d', Sees note d as ns d' ∧ bs.filterMap note = ns ++ more.filterMap note ∧
      Glides ⟨r'.place, d'⟩ s' more := by
  induction h generalizing d bs with
  | nil r s => exact ⟨[], bs, d, .nil d, rfl, glides⟩
  | @cons r r₁ r' a as s s₁ s' first whole more ih =>
    rw [List.forall_mem_cons] at even
    rw [List.flatMap_cons, List.mem_append, not_or] at unmarked
    rw [whole] at glides
    obtain ⟨ns, d₁, seen⟩ : ∃ ns d₁, a.Seen note d ns d₁ :=
      glides.seen first even.1 placed unmarked.1 fun dead => more.ne_nil dead live
    obtain ⟨found, steps, rfl⟩ := first.watch seen (.inl placed)
    obtain ⟨left, rfl, behind⟩ := glides.of_steps steps
    obtain ⟨ns', more', d', sees, notes, ended⟩ := ih live even.2
      (first.unmasked placed unmarked.1) unmarked.2 behind
    refine ⟨_, more', d', .cons seen sees, ?_, ended⟩
    rw [List.filterMap_append, notes, List.append_assoc]

end CSharpTidy
