import CSharpTidy.Proofs.LexerRun
import CSharpTidy.Proofs.ScanLocality
import Mathlib.Data.List.Find

/- What the lexer does in front of a line break does not depend on what stands behind it. Two
   cursors that differ behind a line break only, and in their positions, take the same steps up to
   that line break. -/
namespace CSharpTidy

/-- The inputs are equal, or equal up to and with a line break. -/
def Agree (s t : List Char) : Prop :=
  t = s ∨ ∃ z u x y, isLineBreak z ∧ s = u ++ z :: x ∧ t = u ++ z :: y

/-- Two inputs that agree, and what is left of them behind a text that both start with. It ends in
front of the line break. -/
def Moves (s s' t t' : List Char) : Prop :=
  (t = s ∧ t' = s') ∨ ∃ z u w x y, isLineBreak z ∧ s = u ++ z :: x ∧ s' = w ++ z :: x ∧
    t = u ++ z :: y ∧ t' = w ++ z :: y

variable {s t : List Char} {a b : Char}

theorem Agree.head (h : Agree s t) : t.head? = s.head? := by
  rcases h with rfl | ⟨z, u, x, y, -, rfl, rfl⟩
  · rfl
  · cases u <;> rfl

namespace Moves

variable {s s' t t' : List Char}

theorem agree (h : Moves s s' t t') : Agree s t := by
  rcases h with ⟨rfl, -⟩ | ⟨z, u, w, x, y, breaks, rfl, -, rfl, -⟩
  · exact .inl rfl
  · exact .inr ⟨z, u, x, y, breaks, rfl, rfl⟩

theorem eq_of_stays (h : Moves s s t t') : t' = t := by
  rcases h with ⟨rfl, rfl⟩ | ⟨z, u, w, x, y, -, front, back, rfl, rfl⟩
  · rfl
  · rw [List.append_cancel_right (front.symm.trans back)]

theorem through (h : Moves s s' t t') {m : List Char} (inner : s' <:+ m) (outer : m <:+ s) :
    ∃ r, Moves s m t r ∧ Moves m s' r t' := by
  rcases h with ⟨rfl, rfl⟩ | ⟨z, u, w, x, y, breaks, rfl, rfl, rfl, rfl⟩
  · exact ⟨m, .inl ⟨rfl, rfl⟩, .inl ⟨rfl, rfl⟩⟩
  · obtain ⟨v, rfl, -⟩ := eq_append_of_suffix outer ((suffix_cons_self w).trans inner)
    exact ⟨v ++ z :: y, .inr ⟨z, u, v, x, y, breaks, rfl, rfl, rfl, rfl⟩,
      .inr ⟨z, v, w, x, y, breaks, rfl, rfl, rfl, rfl⟩⟩

theorem cons (h : Moves (a :: s) s' t t') (shorter : s' <:+ s) :
    ∃ t₀, t = a :: t₀ ∧ Moves s s' t₀ t' := by
  rcases h with ⟨rfl, rfl⟩ | ⟨z, u, w, x, y, breaks, front, rfl, rfl, rfl⟩
  · exact ⟨s, rfl, .inl ⟨rfl, rfl⟩⟩
  · cases u with
    | nil =>
      obtain ⟨rfl, rfl⟩ := List.cons.inj front
      have := shorter.length_le
      simp only [List.length_append, List.length_cons] at this
      omega
    | cons b u =>
      obtain ⟨rfl, rfl⟩ := List.cons.inj front
      exact ⟨u ++ z :: y, rfl, .inr ⟨z, u, w, x, y, breaks, rfl, rfl, rfl, rfl⟩⟩

theorem textBefore (h : Moves s s' t t') (suffix : s' <:+ s) :
    CSharpTidy.textBefore t t' = CSharpTidy.textBefore s s' := by
  rcases h with ⟨rfl, rfl⟩ | ⟨z, u, w, x, y, -, rfl, rfl, rfl, rfl⟩
  · rfl
  · obtain ⟨v, same, a, rfl⟩ := eq_append_of_suffix suffix (suffix_cons_self w)
    obtain rfl := List.append_cancel_right same
    rw [List.append_assoc, List.append_assoc, textBefore_append_self, textBefore_append_self]

theorem dropWhile {p : Char → Bool} (h : Moves s (s.dropWhile p) t t') :
    t.dropWhile p = t' ∧ t.takeWhile p = s.takeWhile p := by
  rcases h with ⟨rfl, rfl⟩ | ⟨z, u, w, x, y, -, rfl, left, rfl, rfl⟩
  · exact ⟨rfl, rfl⟩
  · exact dropWhile_local left

theorem splitBreak (h : Moves s (splitBreak s).2 t t') :
    CSharpTidy.splitBreak t = ((CSharpTidy.splitBreak s).1, t') := by
  rcases h with ⟨rfl, rfl⟩ | ⟨z, u, w, x, y, -, rfl, left, rfl, rfl⟩
  · rfl
  · cases u with
    | nil =>
      have := splitBreak_rest_length z x
      rw [List.nil_append] at left
      rw [left, List.length_append] at this
      omega
    | cons a u =>
      obtain ⟨d, s, s', front, front', behind, here⟩ := exists_second u w x y z
      rw [List.cons_append, front] at left
      rw [List.cons_append, List.cons_append, front, front']
      by_cases double : a = '\r' ∧ d = '\n'
      · obtain ⟨rfl, rfl⟩ := double
        rw [show CSharpTidy.splitBreak ('\r' :: '\n' :: s') = (['\r', '\n'], s') from rfl,
          behind left]
        rfl
      · have single : ∀ r, CSharpTidy.splitBreak (a :: d :: r) = ([a], d :: r) := by
          intro r
          unfold CSharpTidy.splitBreak
          split <;> simp_all
        rw [single] at left ⊢
        rw [single, here left]

end Moves

namespace Piece

theorem comment?_eq_none_iff (s : List Char) :
    comment? s = .ok none ↔ s.take 2 ≠ ['/', '/'] ∧ s.take 2 ≠ ['/', '*'] := by
  unfold comment?
  split
  · simp
  · split <;> simp
  · rename_i line block
    simp only [true_iff]
    rcases s with _ | ⟨a, _ | ⟨b, s⟩⟩
    · simp
    · simp
    · simp only [List.take_succ_cons, List.take_zero]
      refine ⟨?_, ?_⟩
      · intro same
        cases same
        exact line s rfl
      · intro same
        cases same
        exact block s rfl

variable {u x t' w : List Char} {p : Piece TriviaKind} {z : Char}

theorem comment?_none_local (stops : Stops z) (h : comment? (u ++ z :: x) = .ok none)
    (y : List Char) : comment? (u ++ z :: y) = .ok none := by
  rw [comment?_eq_none_iff] at h ⊢
  rcases u with _ | ⟨a, _ | ⟨b, u⟩⟩
  · simp [stops.slash]
  · exact h
  · exact h

theorem comment?_agree (h : comment? s = .ok none) (agree : Agree s t) : comment? t = .ok none := by
  rcases agree with rfl | ⟨z, u, x, y, breaks, rfl, rfl⟩
  · exact h
  · exact comment?_none_local (.of_isLineBreak breaks) h y

theorem cut_behind_two {rest : List Char} (whole : u ++ z :: x = a :: b :: rest)
    (long : (w ++ z :: x).length ≤ rest.length) : ∃ v, u = a :: b :: v ∧ rest = v ++ z :: x := by
  have length := congrArg List.length whole
  simp only [List.length_append, List.length_cons] at length long
  rcases u with _ | ⟨a, _ | ⟨b, u⟩⟩
  · simp only [List.length_nil] at length
    omega
  · simp only [List.length_singleton] at length
    omega
  · simp only [List.cons_append, List.cons.injEq] at whole
    obtain ⟨rfl, rfl, rfl⟩ := whole
    exact ⟨u, rfl, rfl⟩

theorem comment?_local (h : comment? (u ++ z :: x) = .ok (some p)) (left : p.rest = w ++ z :: x)
    (y : List Char) : comment? (u ++ z :: y) = .ok (some { p with rest := w ++ z :: y }) := by
  have long := congrArg List.length left
  unfold comment? at h
  split at h
  · rename_i rest whole
    cases h
    have short := Literal.afterLine_length_le rest
    simp only at long
    obtain ⟨u, rfl, rfl⟩ := cut_behind_two whole (by rw [long] at short; exact short)
    obtain ⟨behind, taken⟩ := dropWhile_local (y := y) left
    simp only [List.cons_append, comment?, Literal.afterLine, behind, taken]
  · rename_i rest whole
    split at h
    · cases h
    · rename_i rest' ended
      cases h
      have short := Literal.afterBlockComment_length ended
      simp only at long
      obtain ⟨u, rfl, rfl⟩ := cut_behind_two whole (by rw [long] at short; exact short.le)
      simp only at left
      subst left
      obtain ⟨v, same, b, front⟩ := eq_append_of_suffix
        (Literal.afterBlockComment_suffix ended) (suffix_cons_self w)
      obtain rfl := List.append_cancel_right same
      have text : ∀ t : List Char,
          textBefore ('/' :: '*' :: (u ++ z :: t)) (w ++ z :: t) = '/' :: '*' :: b := by
        intro t
        rw [front, List.append_assoc, ← List.cons_append, ← List.cons_append,
          textBefore_append_self]
      simp only [List.cons_append, comment?, Literal.afterBlockComment_local ended, text]
  · cases h

theorem comment?_moves (h : comment? s = .ok (some p)) (moves : Moves s p.rest t t') :
    comment? t = .ok (some { p with rest := t' }) := by
  rcases moves with ⟨rfl, rfl⟩ | ⟨z, u, w, x, y, -, rfl, left, rfl, rfl⟩
  · exact h
  · exact comment?_local h left y

section
variable {z : Char} (mark : Mark z)
include mark

theorem splitNumber_mark (hex : Bool) (previous : Char) (u x : List Char) :
    splitNumber hex previous (u ++ z :: x) =
      ((splitNumber hex previous u).1, (splitNumber hex previous u).2 ++ z :: x) := by
  have underscore := mark.wordStart.2
  have dot := mark.dot
  obtain ⟨plus, minus⟩ := mark.sign
  induction u generalizing previous with
  | nil => simp [splitNumber, numberContinues, mark.alphanum, underscore, dot, plus, minus]
  | cons c u ih =>
    have next : ∀ previous, numberContinues hex previous c (u ++ z :: x).head? =
        numberContinues hex previous c u.head? := by
      intro previous
      cases u with
      | nil => simp [numberContinues, mark.digit]
      | cons d u => rfl
    rw [List.cons_append, splitNumber, splitNumber, next]
    split
    · simp only [ih]
    · rfl

theorem isHex_mark (h : u ≠ []) (x : List Char) : isHex (u ++ z :: x) = isHex u := by
  have kind : z ≠ 'x' ∧ z ≠ 'X' := by
    constructor <;> rintro rfl <;> exact absurd mark.alphanum (by decide)
  rcases u with _ | ⟨a, _ | ⟨b, u⟩⟩
  · exact absurd rfl h
  · by_cases zero : a = '0'
    · subst zero
      unfold isHex
      grind
    · unfold isHex
      grind
  · unfold isHex
    grind

theorem punctLength_mark (h : u ≠ []) (x : List Char) :
    punctLength (u ++ z :: x) = punctLength u ∧ punctLength u ≤ u.length := by
  have same : ∀ op ∈ operators, (op.toList.isPrefixOf (u ++ z :: x) = op.toList.isPrefixOf u) := by
    intro op mem
    have apart := mark.operator op mem
    rw [Bool.eq_iff_iff, List.isPrefixOf_iff_prefix, List.isPrefixOf_iff_prefix]
    constructor
    · intro front
      by_cases short : op.toList.length ≤ u.length
      · exact List.prefix_of_prefix_length_le front (List.prefix_append ..) short
      · exfalso
        have long : u ++ [z] <+: op.toList := by
          refine List.prefix_of_prefix_length_le ⟨x, by simp⟩ front ?_
          simp only [List.length_append, List.length_singleton]
          omega
        exact apart (long.subset (by simp))
    · intro front
      exact front.trans (List.prefix_append ..)
  have found : operators.find? (fun op => op.toList.isPrefixOf (u ++ z :: x)) =
      operators.find? (fun op => op.toList.isPrefixOf u) :=
    List.find?_congr same
  unfold punctLength
  rw [found]
  refine ⟨rfl, ?_⟩
  split
  · rename_i op some
    have := List.find?_some some
    rw [List.isPrefixOf_iff_prefix] at this
    rw [← String.length_toList]
    exact this.length_le
  · exact List.length_pos_iff.mpr h

theorem plain_mark (c : Char) (u x : List Char) :
    plain c (u ++ z :: x) = { plain c u with rest := (plain c u).rest ++ z :: x } := by
  have head : (u ++ z :: x).head?.any isWordStart = u.head?.any isWordStart ∧
      (u ++ z :: x).head?.any Char.isDigit = u.head?.any Char.isDigit := by
    cases u with
    | nil => simp [mark.wordStart, mark.digit]
    | cons d u => exact ⟨rfl, rfl⟩
  obtain ⟨left, taken⟩ := dropWhile_append_cons mark.word u x
  have hex := isHex_mark mark (List.cons_ne_nil c u) x
  obtain ⟨length, short⟩ := punctLength_mark mark (List.cons_ne_nil c u) x
  rw [List.cons_append] at hex length
  unfold plain
  rw [head.1, head.2, left, taken, hex, length]
  split
  · rfl
  · split
    · simp only [splitNumber_mark mark]
    · simp only [← List.cons_append, List.take_append_of_le_length short,
        List.drop_append_of_le_length short]

theorem lexeme_local {p : Piece LexemeKind} (h : lexeme a (u ++ z :: x) = .ok p)
    (left : p.rest = w ++ z :: x) (y : List Char) :
    lexeme a (u ++ z :: y) = .ok { p with rest := w ++ z :: y } := by
  unfold lexeme at h ⊢
  split at h
  · cases h
  · rename_i rest ended
    cases h
    simp only at left
    subst left
    obtain ⟨v, whole, b, front⟩ := eq_append_of_suffix (u := a :: u) (Literal.after_suffix ended)
      (suffix_cons_self w)
    obtain rfl := List.append_cancel_right whole
    have text : ∀ t : List Char, textBefore (a :: (u ++ z :: t)) (w ++ z :: t) = b := by
      intro t
      rw [← List.cons_append, front, List.append_assoc, textBefore_append_self]
    simp only [Literal.after_local mark.toStops ended, text]
  · rename_i none
    cases h
    rw [plain_mark mark] at left
    obtain rfl := List.append_cancel_right left
    simp only [Literal.after_none_local mark.toStops none, plain_mark mark]

end

theorem lexeme_moves {p : Piece LexemeKind} (h : lexeme a s = .ok p) (moves : Moves s p.rest t t') :
    lexeme a t = .ok { p with rest := t' } := by
  rcases moves with ⟨rfl, rfl⟩ | ⟨z, u, w, x, y, breaks, rfl, left, rfl, rfl⟩
  · exact h
  · exact lexeme_local (.of_isLineBreak breaks) h left y

theorem not_atConditional_of_break (breaks : isLineBreak b) (s : List Char) :
    atConditional (b :: s) = false := by
  unfold atConditional
  rw [List.takeWhile_cons_of_neg (by simp [breaks])]
  rfl

theorem atConditional_agree (h : Agree s t) : atConditional t = atConditional s := by
  rcases h with rfl | ⟨z, u, x, y, breaks, rfl, rfl⟩
  · rfl
  · have taken : ∀ x : List Char, (u ++ z :: x).takeWhile (fun c => !isLineBreak c) =
        u.takeWhile fun c => !isLineBreak c :=
      fun x => (dropWhile_append_cons (by simp [breaks]) u x).2
    unfold atConditional
    rw [taken, taken]

theorem afterDisabled_eq (s : List Char) : afterDisabled s =
    if atConditional s then s else afterDisabled (splitBreak (Literal.afterLine s)).2 := by
  fun_cases afterDisabled s with
  | case1 => simp [atConditional, Literal.afterLine, splitBreak, afterDisabled]
  | case2 c rest stops => rw [if_pos stops]
  | case3 c rest goesOn ended => simp [goesOn, ended, splitBreak, afterDisabled]
  | case4 c rest goesOn b rest' ended => rw [if_neg goesOn, ended]

theorem afterDisabled_moves (moves : Moves s (afterDisabled s) t t') : afterDisabled t = t' := by
  fun_induction afterDisabled s generalizing t with
  | case1 =>
    rcases moves with ⟨rfl, rfl⟩ | ⟨z, u, w, x, y, -, front, -⟩
    · rw [afterDisabled]
    · simp at front
  | case2 c rest stops =>
    rw [moves.eq_of_stays, afterDisabled_eq, atConditional_agree moves.agree, if_pos stops]
  | case3 c rest goesOn ended =>
    rcases moves with ⟨rfl, rfl⟩ | ⟨z, u, w, x, y, -, -, none, -⟩
    · rw [afterDisabled_eq, if_neg goesOn, ended, splitBreak, afterDisabled]
    · simp at none
  | case4 c rest goesOn b rest' ended ih =>
    have line := Literal.afterLine_suffix (c :: rest)
    have lines := afterDisabled_suffix (splitBreak (b :: rest')).2
    rw [ended] at line
    obtain ⟨r, first, more⟩ := moves.through (lines.trans (splitBreak_suffix _)) line
    obtain ⟨r', second, others⟩ := more.through lines (splitBreak_suffix _)
    rw [← ended] at first
    rw [afterDisabled_eq, atConditional_agree moves.agree, if_neg goesOn, Literal.afterLine,
      first.dropWhile.1, second.splitBreak]
    exact ih others

end Piece

/-- Cursors that differ in what is left to read and in positions only. -/
structure Cursor.Near (c d : Cursor) : Prop where
  lineStart : d.lineStart = c.lineStart
  conditional : d.conditional = c.conditional
  opened : d.opened.length = c.opened.length

namespace Cursor

variable {c c' d : Cursor} {rest : List Char}

theorem terminator_of_break (ahead : c.rest = b :: rest) (breaks : isLineBreak b) : c.terminator =
      ([⟨.endOfLine, String.ofList (splitBreak c.rest).1⟩],
        { c.move (splitBreak c.rest).1 (splitBreak c.rest).2 with lineStart := true }) := by
  simp [terminator, ahead, breaks]

theorem terminator_of_inline (h : ∀ b, c.rest.head? = some b → isLineBreak b = false) :
    c.terminator = ([], c) := by
  unfold terminator
  split
  · rfl
  · rename_i b rest ahead
    rw [if_neg (by simp [h b (by simp [ahead])])]

theorem terminator_moves (near : Near c d)
    (moves : Moves c.rest c.terminator.2.rest d.rest rest) :
    d.terminator.1 = c.terminator.1 ∧ Near c.terminator.2 d.terminator.2 ∧
      d.terminator.2.rest = rest := by
  have head := moves.agree.head
  by_cases breaks : ∃ b, c.rest.head? = some b ∧ isLineBreak b
  · obtain ⟨b, found, breaks⟩ := breaks
    obtain ⟨s, ahead⟩ := List.head?_eq_some_iff.mp found
    obtain ⟨s', ahead'⟩ := List.head?_eq_some_iff.mp (head.trans found)
    rw [terminator_of_break ahead breaks] at moves ⊢
    rw [terminator_of_break ahead' breaks, Moves.splitBreak moves]
    exact ⟨rfl, ⟨rfl, near.conditional, near.opened⟩, rfl⟩
  · have inline : ∀ b, c.rest.head? = some b → isLineBreak b = false := by
      intro b found
      by_contra wrong
      exact breaks ⟨b, found, by simpa using wrong⟩
    rw [terminator_of_inline inline] at moves ⊢
    rw [terminator_of_inline (head ▸ inline)]
    exact ⟨rfl, near, moves.eq_of_stays.symm⟩

theorem inlinePiece_moves {t : Trivia} (near : Near c d) (h : c.inlinePiece = .ok (some (t, c')))
    (moves : Moves c.rest c'.rest d.rest rest) :
    ∃ d', d.inlinePiece = .ok (some (t, d')) ∧ Near c' d' ∧ d'.rest = rest := by
  unfold inlinePiece at h
  split at h
  · cases h
  · rename_i a s ahead
    rw [ahead] at moves
    split at h
    · rename_i space
      cases h
      obtain ⟨s', ahead', inside⟩ := moves.cons (List.dropWhile_suffix _)
      obtain ⟨left, taken⟩ := inside.dropWhile
      unfold inlinePiece
      rw [ahead']
      simp only [space, if_true, taken, left]
      exact ⟨_, rfl, ⟨near.lineStart, near.conditional, near.opened⟩, rfl⟩
    · rename_i solid
      split at h
      · cases h
      · cases h
      · rename_i p found
        cases h
        have found' := Piece.comment?_moves found moves
        have head := moves.agree.head
        obtain ⟨s', ahead'⟩ := List.head?_eq_some_iff.mp head
        rw [ahead'] at found'
        unfold inlinePiece
        rw [ahead']
        simp only [solid, if_false, found', Bool.false_eq_true]
        exact ⟨_, rfl, ⟨rfl, near.conditional, near.opened⟩, rfl⟩

theorem inlinePiece_stopped (h : c.inlinePiece = .ok none) (agree : Agree c.rest d.rest) :
    d.inlinePiece = .ok none := by
  have head := agree.head
  unfold inlinePiece at h ⊢
  split at h
  · rename_i ended
    rw [ended] at head
    simp [List.head?_eq_none_iff.mp head]
  · rename_i a s ahead
    rw [ahead] at agree head
    obtain ⟨s', ahead'⟩ := List.head?_eq_some_iff.mp head
    split at h
    · cases h
    · rename_i solid
      split at h
      · cases h
      · rename_i none
        have none' := Piece.comment?_agree none agree
        rw [ahead'] at none' ⊢
        simp only [solid, if_false, none', Bool.false_eq_true]
      · cases h

theorem terminator_suffix (c : Cursor) : c.terminator.2.rest <:+ c.rest := by
  have text := congrArg String.toList c.terminator_text
  simp only [ahead, String.toList_append, String.toList_ofList] at text
  exact ⟨_, text⟩

theorem deadBranch_moves (near : Near c d)
    (moves : Moves c.rest c.deadBranch.2.rest d.rest rest) :
    d.deadBranch.1 = c.deadBranch.1 ∧ Near c.deadBranch.2 d.deadBranch.2 ∧
      d.deadBranch.2.rest = rest := by
  have dead := Piece.afterDisabled_suffix c.terminator.2.rest
  obtain ⟨r, first, more⟩ := moves.through dead c.terminator_suffix
  obtain ⟨line, near', left⟩ := terminator_moves near first
  subst left
  have behind := Piece.afterDisabled_moves more
  subst behind
  have text : textBefore d.terminator.2.rest (Piece.afterDisabled d.terminator.2.rest) =
      textBefore c.terminator.2.rest (Piece.afterDisabled c.terminator.2.rest) :=
    more.textBefore dead
  simp only [deadBranch, line, text]
  exact ⟨trivial, ⟨rfl, near'.conditional, near'.opened⟩, rfl⟩

def behindLine (c : Cursor) (line rest : List Char) (conditional : Conditional) : Cursor :=
  { c.move line rest with
    lineStart := false
    conditional := conditional
    opened := c.openedAfter (DirectiveLine.kind line) }

theorem Near.behindLine (near : Near c d) (line rest rest' : List Char)
    (conditional : Conditional) :
    Near (c.behindLine line rest conditional) (d.behindLine line rest' conditional) := by
  refine ⟨rfl, rfl, ?_⟩
  have opened := near.opened
  simp only [Cursor.behindLine, openedAfter]
  split <;> simp [opened]

/-- What a directive line gives: the line alone in live code, else the dead branch as well. -/
inductive Directed (c : Cursor) (line rest : List Char) : Span → Cursor → Prop
  | live {conditional : Conditional}
      (applied : c.conditional.apply (DirectiveLine.kind line) line = .ok conditional)
      (active : conditional.isActive = true) :
      Directed c line rest [.directiveLine line] (c.behindLine line rest conditional)
  | dead {conditional : Conditional}
      (applied : c.conditional.apply (DirectiveLine.kind line) line = .ok conditional)
      (inactive : conditional.isActive = false) :
      Directed c line rest
        (.directiveLine line :: (c.behindLine line rest conditional).deadBranch.1)
        (c.behindLine line rest conditional).deadBranch.2

variable {span : Span} {es : List Element} {side : Side}

theorem directive_eq_ok_iff : c.directive = .ok (span, c') ↔
    Directed c (c.rest.takeWhile fun a => !isLineBreak a) (Literal.afterLine c.rest) span c' := by
  simp only [directive]
  constructor
  · intro h
    split at h
    · cases h
    · rename_i applied
      split at h
      · rename_i active
        cases h
        exact .live applied active
      · rename_i inactive
        cases h
        exact .dead applied (by simpa using inactive)
  · intro h
    cases h with
    | live applied active =>
      simp only [applied, active, if_true]
      rfl
    | dead applied inactive =>
      simp only [applied, inactive, Bool.false_eq_true, if_false]
      rfl

theorem Directed.suffix {line : List Char} (h : Directed c line rest span c') :
    c'.rest <:+ rest := by
  cases h with
  | live => exact List.suffix_rfl
  | dead => exact (Piece.afterDisabled_suffix _).trans (terminator_suffix _)

theorem directive_moves (near : Near c d) (h : c.directive = .ok (span, c'))
    (moves : Moves c.rest c'.rest d.rest rest) :
    ∃ d', d.directive = .ok (span, d') ∧ Near c' d' ∧ d'.rest = rest := by
  rw [directive_eq_ok_iff] at h
  obtain ⟨r, line, behind⟩ := moves.through h.suffix (Literal.afterLine_suffix _)
  obtain ⟨left, taken⟩ := line.dropWhile
  simp only [directive_eq_ok_iff, taken, Literal.afterLine, left]
  cases h with
  | live applied active =>
    refine ⟨_, .live (near.conditional ▸ applied) active, near.behindLine .., ?_⟩
    exact behind.eq_of_stays.symm
  | dead applied inactive =>
    obtain ⟨span, near', left⟩ := deadBranch_moves
      (near.behindLine _ (Literal.afterLine c.rest) r _) behind
    rw [← span]
    exact ⟨_, .dead (near.conditional ▸ applied) inactive, near', left⟩

theorem leadingPiece_moves (near : Near c d) (h : c.leadingPiece = .ok (some (span, c')))
    (moves : Moves c.rest c'.rest d.rest rest) :
    ∃ d', d.leadingPiece = .ok (some (span, d')) ∧ Near c' d' ∧ d'.rest = rest := by
  have head := moves.agree.head
  unfold leadingPiece at h
  split at h
  · cases h
  · rename_i a s ahead
    rw [ahead] at head
    obtain ⟨s', ahead'⟩ := List.head?_eq_some_iff.mp head
    unfold leadingPiece
    rw [ahead']
    split at h
    · rename_i breaks
      have ended : c.terminator = (span, c') := Option.some.inj (Except.ok.inj h)
      obtain ⟨line, more⟩ := terminator_moves near (by rw [ended]; exact moves)
      rw [ended] at line more
      have same : d.terminator = (span, d.terminator.2) := Prod.ext line rfl
      refine ⟨d.terminator.2, ?_, more⟩
      simp only [breaks, if_true]
      rw [← same]
    · rename_i inline
      split at h
      · rename_i hash
        split at h
        · cases h
        · rename_i r found
          cases h
          obtain ⟨d', found', more⟩ := directive_moves near found moves
          refine ⟨d', ?_, more⟩
          simp [inline, near.lineStart, hash, found']
      · rename_i plain
        split at h
        · cases h
        · cases h
        · rename_i found
          cases h
          obtain ⟨d', found', more⟩ := inlinePiece_moves near found moves
          refine ⟨d', ?_, more⟩
          simp only [inline, near.lineStart, plain, found', if_false, Bool.false_eq_true]

theorem leadingPiece_stopped (near : Near c d) (h : c.leadingPiece = .ok none)
    (agree : Agree c.rest d.rest) : d.leadingPiece = .ok none := by
  have head := agree.head
  unfold leadingPiece at h ⊢
  split at h
  · rename_i ended
    rw [ended] at head
    simp [List.head?_eq_none_iff.mp head]
  · rename_i a s ahead
    rw [ahead] at head
    obtain ⟨s', ahead'⟩ := List.head?_eq_some_iff.mp head
    rw [ahead']
    split at h
    · cases h
    · rename_i inline
      split at h
      · split at h <;> cases h
      · rename_i plain
        split at h
        · cases h
        · rename_i none
          have none' := inlinePiece_stopped none agree
          simp only [inline, near.lineStart, plain, none', if_false, Bool.false_eq_true]
        · cases h

theorem lexeme_moves {s' : List Char} {l : Lexeme} (near : Near c d)
    (h : c.lexeme a s = .ok (l, c')) (moves : Moves s c'.rest s' rest) :
    ∃ d', d.lexeme a s' = .ok (l, d') ∧ Near c' d' ∧ d'.rest = rest := by
  unfold lexeme at h ⊢
  split at h
  · cases h
  · rename_i p found
    cases h
    rw [Piece.lexeme_moves found moves]
    exact ⟨_, rfl, ⟨rfl, near.conditional, near.opened⟩, rfl⟩

/-- A step in front of a line break does not depend on what stands behind it. -/
theorem Step.moves {side' : Side} (near : Near c d) (h : Step side c es side' c')
    (moves : Moves c.rest c'.rest d.rest rest) :
    ∃ d', Step side d es side' d' ∧ Near c' d' ∧ d'.rest = rest := by
  cases h with
  | piece piece =>
    obtain ⟨d', piece', more⟩ := leadingPiece_moves near piece moves
    exact ⟨d', .piece piece', more⟩
  | @lexeme _ _ a s l stopped ahead found =>
    have stopped' := leadingPiece_stopped near stopped moves.agree
    have suffix : c'.rest <:+ s := by
      have text := congrArg String.toList (lexeme_text found)
      have short := lexeme_length found
      simp only [Cursor.ahead, String.toList_append, String.toList_ofList] at text
      rcases List.suffix_cons_iff.mp ⟨_, text⟩ with whole | inside
      · rw [whole] at short
        omega
      · exact inside
    rw [ahead] at moves
    obtain ⟨s', ahead', inside⟩ := moves.cons suffix
    obtain ⟨d', found', more⟩ := lexeme_moves near found inside
    exact ⟨d', .lexeme stopped' ahead' found', more⟩
  | inline piece =>
    obtain ⟨d', piece', more⟩ := inlinePiece_moves near piece moves
    exact ⟨d', .inline piece', more⟩
  | lineEnd stopped =>
    have stopped' := inlinePiece_stopped stopped moves.agree
    obtain ⟨span, near', left⟩ := terminator_moves near moves
    rw [← span]
    exact ⟨_, .lineEnd stopped', near', left⟩

theorem Run.near (h : Run side c es) (near : Near c d) (same : d.rest = c.rest) :
    Run side d es := by
  induction h generalizing d with
  | done ended closed =>
    refine .done (same.trans ended) ?_
    have opened := near.opened
    rw [closed] at opened
    exact List.length_eq_zero_iff.mp opened
  | step first _ ih =>
    obtain ⟨d', first', near', same'⟩ := first.moves near (.inl ⟨same, rfl⟩)
    exact .step first' (ih near' same')

end Cursor

end CSharpTidy
