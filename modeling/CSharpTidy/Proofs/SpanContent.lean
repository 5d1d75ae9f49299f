import CSharpTidy.Layout.Spacing
import CSharpTidy.Order.Region
import Mathlib.Data.List.TakeWhile

/- What tidying keeps of a span. Spacing rewrites blanks only; dropping region lines drops the
   markers, blanks beside them and nothing else. -/
namespace CSharpTidy

variable {t : Trivia}

theorem Trivia.isBlank_of_isWhitespace (h : t.isWhitespace) : t.isBlank := by
  simp [isBlank, h]

theorem Trivia.isBlank_of_isEndOfLine (h : t.isEndOfLine) : t.isBlank := by
  simp [isBlank, h]

theorem Trivia.not_isBlank_of_isRegionMarker (h : t.isRegionMarker) : t.isBlank = false := by
  obtain ⟨kind, text⟩ := t
  cases kind <;> simp_all [isRegionMarker, isBlank, isWhitespace, isEndOfLine]

namespace Span

/-- The trivia that are no blanks: comments, directives and dead code. -/
def solid (span : Span) : Span :=
  span.filter fun t => !t.isBlank

@[simp] theorem solid_nil : solid [] = [] := rfl

@[simp] theorem solid_append (a b : Span) : solid (a ++ b) = solid a ++ solid b :=
  List.filter_append ..

@[simp] theorem solid_reverse (span : Span) : solid span.reverse = (solid span).reverse :=
  List.filter_reverse ..

theorem solid_cons_of_blank (h : t.isBlank) (span : Span) : solid (t :: span) = solid span := by
  simp [solid, h]

theorem solid_cons_of_not_blank (h : t.isBlank = false) (span : Span) :
    solid (t :: span) = t :: solid span := by
  simp [solid, h]

variable {p : Trivia → Bool} {span : Span}

theorem solid_eq_nil (h : ∀ t ∈ span, t.isBlank) : solid span = [] := by
  simpa [solid] using h

theorem solid_takeWhile (blank : ∀ t, p t → t.isBlank) (span : Span) :
    solid (span.takeWhile p) = [] :=
  solid_eq_nil fun _ mem => blank _ (List.mem_takeWhile_imp mem)

theorem solid_dropWhile (blank : ∀ t, p t → t.isBlank) (span : Span) :
    solid (span.dropWhile p) = solid span := by
  conv => rhs; rw [← List.takeWhile_append_dropWhile (p := p) (l := span)]
  rw [solid_append, solid_takeWhile blank, List.nil_append]

@[simp] theorem solid_lineEnd_cons (ending : String) (span : Span) :
    solid (.lineEnd ending :: span) = solid span :=
  solid_cons_of_blank rfl span

@[simp] theorem solid_stripLeading (span : Span) : solid (stripLeading span) = solid span := by
  have content := solid_dropWhile (fun _ h => h) span
  unfold stripLeading
  split
  · rename_i allBlank
    rw [← content, allBlank, solid_nil]
    refine solid_eq_nil fun t mem => ?_
    rw [Option.mem_toList, Option.filter_eq_some_iff] at mem
    exact Trivia.isBlank_of_isWhitespace mem.2
  · have indentation := solid_takeWhile (fun _ h => Trivia.isBlank_of_isWhitespace h)
      (span.takeWhile Trivia.isBlank).reverse
    rw [solid_append, solid_reverse, indentation, content]
    rfl

@[simp] theorem solid_stripTrailing (ending : String) (span : Span) :
    solid (stripTrailing ending span) = solid span := by
  have content := solid_dropWhile (fun _ h => h) span.reverse
  simp [stripTrailing, content]

@[simp] theorem solid_oneLeading (ending : String) (span : Span) :
    solid (oneLeading ending span) = solid span := by
  simp [oneLeading]

@[simp] theorem solid_setIndent (indent : String) (span : Span) :
    solid (setIndent indent span) = solid span := by
  have line := solid_dropWhile (fun _ h => Trivia.isBlank_of_isWhitespace h)
    (span.reverse.takeWhile fun t => !t.isEndOfLine).reverse
  have indentation : solid (if indent.isEmpty then [] else [⟨.whitespace, indent⟩]) = [] := by
    split <;> rfl
  simp only [setIndent, solid_append, indentation, line, List.append_nil]
  rw [← solid_append, ← List.reverse_append, List.takeWhile_append_dropWhile,
    List.reverse_reverse]

theorem solid_eq_nil_of_isBlank (h : span.isBlank) : solid span = [] :=
  solid_eq_nil (List.all_eq_true.mp h)

/-- The solid trivia that are no region markers. -/
def unmarked (span : Span) : Span :=
  span.solid.filter fun t => !t.isRegionMarker

theorem solid_stripRegionsFrom (kept : Span) (behind : Bool) (removed : Nat) (span : Span) :
    solid (stripRegionsFrom kept behind removed span).1 = solid kept.reverse ++ unmarked span := by
  fun_induction stripRegionsFrom kept behind removed span with
  | case1 => simp [unmarked]
  | case2 kept behind removed t rest dropped ih =>
    have blank : t.isBlank := Trivia.isBlank_of_isEndOfLine (by simp_all)
    rw [ih, unmarked, unmarked, solid_cons_of_blank blank]
  | case3 kept behind removed t rest _ marker ih =>
    have whitespace := solid_dropWhile (fun _ h => Trivia.isBlank_of_isWhitespace h) kept
    rw [ih, unmarked, unmarked,
      solid_cons_of_not_blank (Trivia.not_isBlank_of_isRegionMarker marker)]
    simp [marker, whitespace]
  | case4 kept behind removed t rest _ other ih =>
    rw [ih]
    cases blank : t.isBlank with
    | true => simp [unmarked, solid_cons_of_blank, blank]
    | false => simp [unmarked, solid_cons_of_not_blank, blank, other]

theorem solid_stripRegions (span : Span) : solid (stripRegions span).1 = unmarked span :=
  solid_stripRegionsFrom [] false 0 span

theorem stripRegionsFrom_sublist (kept : Span) (behind : Bool) (removed : Nat) (span : Span) :
    (stripRegionsFrom kept behind removed span).1.Sublist (kept.reverse ++ span) := by
  fun_induction stripRegionsFrom kept behind removed span with
  | case1 => simp
  | case2 kept behind removed t rest _ ih =>
    exact ih.trans ((List.sublist_cons_self t rest).append_left _)
  | case3 kept behind removed t rest _ _ ih =>
    have fewer : (kept.dropWhile Trivia.isWhitespace).reverse.Sublist kept.reverse :=
      (List.dropWhile_suffix _).sublist.reverse
    exact ih.trans (fewer.append (List.sublist_cons_self t rest))
  | case4 kept behind removed t rest _ _ ih => simpa using ih

end Span

end CSharpTidy
