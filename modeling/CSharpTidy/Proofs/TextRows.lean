import CSharpTidy.Proofs.PathComponents
import Mathlib.Data.List.DropRight
import Mathlib.Data.List.TakeWhile

/- Rows of text, which only a line feed ends. -/
namespace CSharpTidy

namespace Text

/-- The rest of the row that a text starts in. -/
def rowRest (s : List Char) : List Char :=
  s.takeWhile (· != '\n')

variable {s t : List Char} {c : Char}

theorem rowRest_cons (other : c ≠ '\n') (s : List Char) : rowRest (c :: s) = c :: rowRest s := by
  simp [rowRest, other]

theorem eq_cons_of_rowRest {rest : List Char} (h : rowRest s = c :: rest) : ∃ t, s = c :: t := by
  obtain ⟨t, whole⟩ : rowRest s <+: s := List.takeWhile_prefix _
  rw [h] at whole
  exact ⟨rest ++ t, whole.symm⟩

theorem lineFeed_not_mem_rowRest (s : List Char) : '\n' ∉ rowRest s := by
  intro mem
  simpa using List.mem_takeWhile_imp mem

theorem rowRest_append (single : '\n' ∉ s) (t : List Char) : rowRest (s ++ t) = s ++ rowRest t := by
  induction s with
  | nil => rfl
  | cons c s ih =>
    obtain ⟨other, single⟩ : '\n' ≠ c ∧ '\n' ∉ s := by simpa using single
    rw [List.cons_append, rowRest_cons (Ne.symm other), ih single, List.cons_append]

theorem splitOn_row {row : List Char} (single : '\n' ∉ row) (s : List Char) :
    ∃ more, (row ++ s).splitOn '\n' = (row ++ rowRest s) :: more := by
  have single' : '\n' ∉ row ++ rowRest s := by simp [single, lineFeed_not_mem_rowRest]
  have whole : rowRest s ++ s.dropWhile (· != '\n') = s := List.takeWhile_append_dropWhile
  have next := List.head?_dropWhile_not (· != '\n') s
  generalize s.dropWhile (· != '\n') = behind at whole next
  generalize rowRest s = rest at whole single'
  subst whole
  cases behind with
  | nil =>
    rw [List.append_nil, List.splitOn_eq_singleton single']
    exact ⟨[], rfl⟩
  | cons c behind =>
    have lineFeed : c = '\n' := by simpa using next
    rw [lineFeed, ← List.append_assoc, List.splitOn_append_cons_self_of_not_mem single']
    exact ⟨_, rfl⟩

def lastRow (s : List Char) : List Char :=
  s.rtakeWhile (· != '\n')

theorem lineFeed_not_mem_lastRow (s : List Char) : '\n' ∉ lastRow s := by
  intro mem
  simpa using List.mem_rtakeWhile_imp mem

theorem lastRow_append (single : '\n' ∉ t) (s : List Char) : lastRow (s ++ t) = lastRow s ++ t := by
  have inline : ∀ c ∈ t.reverse, (c != '\n') = true := by
    intro c mem
    simp only [bne_iff_ne]
    rintro rfl
    exact single (List.mem_reverse.mp mem)
  rw [lastRow, List.rtakeWhile, List.reverse_append, List.takeWhile_append_of_pos inline]
  simp [lastRow, List.rtakeWhile]

theorem lastRow_append_lineFeed (s t : List Char) : lastRow (s ++ '\n' :: t) = lastRow t := by
  induction t using List.reverseRecOn with
  | nil => simp [lastRow]
  | append_singleton t c ih =>
    rw [← List.cons_append, ← List.append_assoc, lastRow, List.rtakeWhile_concat, lastRow,
      List.rtakeWhile_concat]
    rw [lastRow, lastRow] at ih
    rw [ih]

theorem lastRow_cases (s : List Char) :
    lastRow s = s ∨ ∃ front, s = front ++ '\n' :: lastRow s := by
  induction s using List.reverseRecOn with
  | nil => exact .inl rfl
  | append_singleton s c ih =>
    by_cases lineFeed : c = '\n'
    · subst lineFeed
      exact .inr ⟨s, by rw [lastRow_append_lineFeed]; rfl⟩
    · rw [lastRow_append (by simpa using Ne.symm lineFeed)]
      rcases ih with same | ⟨front, eq⟩
      · exact .inl (by rw [same])
      · exact .inr ⟨front, by simpa using congrArg (· ++ [c]) eq⟩

theorem splitOn_append (s t : List Char) : (s ++ t).splitOn '\n' =
    (s.splitOn '\n').dropLast ++ (lastRow s ++ t).splitOn '\n' := by
  rcases lastRow_cases s with same | ⟨front, eq⟩
  · have single : '\n' ∉ s := same ▸ lineFeed_not_mem_lastRow s
    rw [same, List.splitOn_eq_singleton single]
    rfl
  · have single := lineFeed_not_mem_lastRow s
    generalize lastRow s = row at eq single
    rw [eq, List.append_assoc, List.cons_append, List.splitOn_append_cons_self,
      List.splitOn_append_cons_self, List.splitOn_eq_singleton single, List.dropLast_concat]

theorem splitOn_append_row (s : List Char) (single : '\n' ∉ t) :
    (s ++ t).splitOn '\n' = (s.splitOn '\n').dropLast ++ [lastRow s ++ t] := by
  have whole : '\n' ∉ lastRow s ++ t := by simp [lineFeed_not_mem_lastRow, single]
  rw [splitOn_append, List.splitOn_eq_singleton whole]

end Text

end CSharpTidy
