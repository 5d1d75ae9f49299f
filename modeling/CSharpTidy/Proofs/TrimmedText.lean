import CSharpTidy.Organize.Text
import CSharpTidy.Proofs.LexedSpans
import Mathlib.Data.List.DropRight

/- Texts up to the blanks at their ends. Where two texts agree, so do the gaps in front of a solid
   character that both have. -/
namespace CSharpTidy

variable {t s : List Char} {c x : Char}

theorem isVoid_of_isBlank (h : Text.isBlank c) : isVoid c := by
  cases breaks : isLineBreak c <;> simp [isVoid, isSpace, h, breaks]

theorem isVoid_of_isSpace (h : isSpace c) : isVoid c := by
  simp [isVoid, h]

theorem not_isBlank_of_solid (h : isVoid c = false) : Text.isBlank c = false := by
  by_contra blank
  rw [isVoid_of_isBlank (by simpa using blank)] at h
  cases h

theorem isBlank_of_isLineBreak (h : isLineBreak c) : Text.isBlank c := by
  simp only [isLineBreak, Bool.or_eq_true, beq_iff_eq] at h
  rcases h with rfl | rfl <;> decide

theorem isSpace_eq_false_of_isLineBreak (h : isLineBreak c) : isSpace c = false := by
  simp only [isLineBreak, Bool.or_eq_true, beq_iff_eq] at h
  rcases h with rfl | rfl <;> decide

namespace IsTerminator

variable {ending : String}

theorem exists_cons (h : IsTerminator ending) :
    ∃ a rest, ending.toList = a :: rest ∧ ∀ c ∈ a :: rest, isLineBreak c := by
  rcases h with rfl | rfl | rfl
  · exact ⟨'\n', [], rfl, by simp [CSharpTidy.isLineBreak]⟩
  · exact ⟨'\r', [], rfl, by simp [CSharpTidy.isLineBreak]⟩
  · exact ⟨'\r', ['\n'], rfl, by simp [CSharpTidy.isLineBreak]⟩

theorem isLineBreak (h : IsTerminator ending) : ∀ c ∈ ending.toList, isLineBreak c := by
  obtain ⟨a, rest, text, breaks⟩ := h.exists_cons
  exact text ▸ breaks

theorem isBlank (h : IsTerminator ending) : ∀ c ∈ ending.toList, Text.isBlank c :=
  fun c mem => isBlank_of_isLineBreak (h.isLineBreak c mem)

theorem isVoid (h : IsTerminator ending) : ∀ c ∈ ending.toList, isVoid c :=
  fun c mem => isVoid_of_isBlank (h.isBlank c mem)

/-- Terminators that are not equal start differently, or one is the first half of the other. -/
theorem append_inj {a b : String} (ha : IsTerminator a) (hb : IsTerminator b)
    (h : a.toList ++ s = b.toList ++ t) :
    (a = b ∧ s = t) ∨ (a = "\r" ∧ b = "\r\n" ∧ s = '\n' :: t) ∨
      (a = "\r\n" ∧ b = "\r" ∧ t = '\n' :: s) := by
  rcases ha with rfl | rfl | rfl <;> rcases hb with rfl | rfl | rfl <;> simp_all

end IsTerminator

theorem LineEnding.firstTerminator_isTerminator (s : List Char) :
    IsTerminator (firstTerminator s) := by
  fun_induction firstTerminator s with
  | case1 => exact .inl rfl
  | case2 => exact .inr (.inr rfl)
  | case3 => exact .inr (.inl rfl)
  | case4 => exact .inl rfl
  | case5 _ _ _ _ _ ih => exact ih

theorem LineEnding.resolve_isTerminator (ending : LineEnding) (source : List Char) :
    IsTerminator (ending.resolve source) := by
  cases ending with
  | auto => exact firstTerminator_isTerminator source
  | lf => exact .inl rfl
  | crlf => exact .inr (.inr rfl)

theorem gap_cancel {g g' v r r' : List Char} (void : ∀ c ∈ g, isVoid c) (void' : ∀ c ∈ g', isVoid c)
    (voidV : ∀ c ∈ v, isVoid c) (solid : isVoid x = false)
    (h : g ++ (v ++ x :: r) = g' ++ (v ++ x :: r')) : g = g' ∧ r = r' := by
  have gaps := congrArg (List.takeWhile isVoid) h
  rw [List.takeWhile_append_of_pos void, List.takeWhile_append_of_pos voidV,
    List.takeWhile_append_of_pos void', List.takeWhile_append_of_pos voidV,
    List.takeWhile_cons_of_neg (by simp [solid]), List.takeWhile_cons_of_neg (by simp [solid])]
    at gaps
  obtain rfl : g = g' := List.append_cancel_right gaps
  simpa using h

namespace Text

theorem trimEnd_eq (s : List Char) : trimEnd s = s.rdropWhile isBlank := rfl

theorem trimEnd_append_of_blank (s : List Char) (h : ∀ c ∈ t, isBlank c) :
    trimEnd (s ++ t) = trimEnd s := by
  rw [trimEnd, List.reverse_append, List.dropWhile_append_of_pos (by simpa using h), trimEnd]

theorem trimEnd_append_of_solid (s : List Char) (h : ∃ c ∈ t, isBlank c = false) :
    trimEnd (s ++ t) = s ++ trimEnd t := by
  have stops : t.reverse.dropWhile isBlank ≠ [] := by
    obtain ⟨c, mem, solid⟩ := h
    intro nothing
    have := List.dropWhile_eq_nil_iff.mp nothing c (by simpa using mem)
    simp [solid] at this
  rw [trimEnd, List.reverse_append, List.dropWhile_append, if_neg (by simpa using stops),
    List.reverse_append, List.reverse_reverse, trimEnd]

theorem trimEnd_append_cons (s : List Char) (h : isBlank x = false) (t : List Char) :
    trimEnd (s ++ x :: t) = s ++ x :: trimEnd t := by
  rw [trimEnd_append_of_solid s ⟨x, by simp, h⟩]
  congr 1
  by_cases blank : ∀ c ∈ t, isBlank c
  · have one : trimEnd [x] = [x] := by simp [trimEnd, h]
    have none : trimEnd t = [] := by
      simpa [trimEnd] using blank
    rw [← List.singleton_append, trimEnd_append_of_blank _ blank, one, none]
  · simp only [not_forall, Bool.not_eq_true, exists_prop] at blank
    rw [← List.singleton_append, trimEnd_append_of_solid _ blank]
    rfl

theorem trimEnd_length_le (s : List Char) : (trimEnd s).length ≤ s.length :=
  (List.rdropWhile_prefix isBlank s).length_le

theorem blank_of_trimEnd_append (h : trimEnd (s ++ t) = trimEnd s) : ∀ c ∈ t, isBlank c := by
  by_contra solid
  simp only [not_forall, Bool.not_eq_true, exists_prop] at solid
  obtain ⟨c, mem, solid⟩ := solid
  obtain ⟨before, behind, rfl⟩ := List.append_of_mem mem
  have short := trimEnd_length_le s
  rw [← h, ← List.append_assoc, trimEnd_append_cons _ solid] at short
  simp only [List.length_append, List.length_cons] at short
  omega

theorem trimEnd_trimEnd (s : List Char) : trimEnd (trimEnd s) = trimEnd s :=
  List.rdropWhile_idempotent ..

theorem trimStart_eq_self_iff (s : List Char) :
    trimStart s = s ↔ ∀ c, s.head? = some c → isBlank c = false := by
  cases s with
  | nil => simp [trimStart]
  | cons a s =>
    cases blank : isBlank a with
    | false => simp [trimStart, blank]
    | true =>
      have shorter := (List.dropWhile_suffix (l := s) isBlank).length_le
      constructor
      · intro same
        rw [trimStart, List.dropWhile_cons_of_pos blank] at same
        rw [same, List.length_cons] at shorter
        omega
      · intro solid
        simp [blank] at solid

theorem trimStart_of_prefix (h : s <+: t) (trimmed : trimStart t = t) : trimStart s = s := by
  rw [trimStart_eq_self_iff] at trimmed ⊢
  intro c head
  obtain ⟨rest, rfl⟩ := h
  exact trimmed c (by simp [head])

theorem trimStart_trim (s : List Char) : trimStart (trim s) = trim s :=
  trimStart_of_prefix (List.rdropWhile_prefix ..) (List.dropWhile_idempotent ..)

theorem trimEnd_trim (s : List Char) : trimEnd (trim s) = trim s :=
  trimEnd_trimEnd _

theorem trimStart_append_of_blank (h : ∀ c ∈ s, isBlank c) (t : List Char) :
    trimStart (s ++ t) = trimStart t :=
  List.dropWhile_append_of_pos h

theorem trimStart_append_cons (s : List Char) (h : isBlank x = false) (t : List Char) :
    trimStart (s ++ x :: t) = trimStart s ++ x :: t := by
  rw [trimStart, List.dropWhile_append, List.dropWhile_cons_of_neg (by simp [h])]
  split
  · rename_i none
    rw [trimStart, List.isEmpty_iff.mp none, List.nil_append]
  · rfl

theorem trim_append_cons (s : List Char) (h : isBlank x = false) (t : List Char) :
    trim (s ++ x :: t) = trimStart s ++ x :: trimEnd t := by
  rw [trim, trimStart_append_cons s h, trimEnd_append_cons _ h]

theorem trim_append_of_trimmed (start : trimStart s = s) (finish : trimEnd s = s)
    (h : ∀ c ∈ t, isBlank c) : trim (s ++ t) = s := by
  cases s with
  | nil =>
    rw [List.nil_append, trim, trimStart, List.dropWhile_eq_nil_iff.mpr h]
    rfl
  | cons a s =>
    have solid := (trimStart_eq_self_iff _).mp start a rfl
    have same : trimStart (a :: s ++ t) = a :: s ++ t := by
      rw [trimStart_eq_self_iff]
      simpa using solid
    rw [trim, same, trimEnd_append_of_blank _ h, finish]

end Text

end CSharpTidy
