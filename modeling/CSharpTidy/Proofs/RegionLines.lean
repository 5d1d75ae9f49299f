import CSharpTidy.Proofs.Ordering
import CSharpTidy.Proofs.StreamShape

/- Dropping region markers drops lines. Where every marker has its line to itself, what is left of a
   span are its other lines, each as it was: no marker takes along the indentation or the end of a
   line that is not its own. -/
namespace CSharpTidy

variable {t : Trivia}

theorem Trivia.not_isRegionMarker_of_isWhitespace (h : t.isWhitespace) :
    t.isRegionMarker = false := by
  simp only [isWhitespace, beq_iff_eq] at h
  simp [isRegionMarker, h]

theorem Trivia.not_isWhitespace_of_breaksLine (h : t.breaksLine) : t.isWhitespace = false := by
  cases kind : t.kind <;> simp_all [breaksLine, isWhitespace]

theorem Trivia.not_isRegionMarker_of_breaksLine (h : t.breaksLine) : t.isRegionMarker = false := by
  cases kind : t.kind <;> simp_all [breaksLine, isRegionMarker]

theorem Trivia.breaksLine_of_isEndOfLine (h : t.isEndOfLine) : t.breaksLine := by
  simp only [isEndOfLine, beq_iff_eq] at h
  simp [breaksLine, h]

namespace Span

def lines : Span → List Span
  | [] => []
  | t :: rest =>
      if t.breaksLine then [t] :: lines rest
      else
        match lines rest with
        | [] => [[t]]
        | line :: others => (t :: line) :: others

/-- Only white space stands in front of a region marker on its line, and its line ends behind it. -/
def MarkersAlone (span : Span) : Prop :=
  ∀ earlier marker later, span = earlier ++ marker :: later → marker.isRegionMarker →
    EndsBlank earlier ∧ ∀ t ∈ later.head?, t.isEndOfLine

/-- White space, one region marker, and the end of the line unless the span ends there. -/
def IsRegionLine (line : Span) : Prop :=
  ∃ indent marker ending, line = indent ++ marker :: ending ∧ (∀ t ∈ indent, t.isWhitespace) ∧
    marker.isRegionMarker ∧ ∀ t ∈ ending, ending = [t] ∧ t.isEndOfLine

def Unbroken (span : Span) : Prop :=
  ∀ t ∈ span, t.breaksLine = false

/-- A span is the trivia of a last line without an end, or a line and a span behind it. -/
theorem line_induction {P : Span → Prop} (last : ∀ front, Unbroken front → P front)
    (line : ∀ front t rest, Unbroken front → t.breaksLine → P rest → P (front ++ t :: rest))
    (span : Span) : P span := by
  suffices grown : ∀ front, Unbroken front → P (front ++ span) from grown [] (by simp [Unbroken])
  induction span with
  | nil => simpa using last
  | cons t rest ih =>
    intro front unbroken
    cases breaks : t.breaksLine with
    | true => exact line front t rest unbroken breaks (ih [] (by simp [Unbroken]))
    | false =>
      have longer : Unbroken (front ++ [t]) := by
        simpa [Unbroken, or_imp, forall_and, breaks] using unbroken
      simpa using ih (front ++ [t]) longer

theorem lines_unbroken {front : Span} (unbroken : Unbroken front) (nonempty : front ≠ []) :
    lines front = [front] := by
  induction front with
  | nil => exact absurd rfl nonempty
  | cons t front ih =>
    obtain ⟨here, later⟩ := List.forall_mem_cons.mp unbroken
    cases front with
    | nil => simp [lines, here]
    | cons u front => rw [lines, if_neg (by simp [here]), ih later (by simp)]

theorem lines_broken {front : Span} (unbroken : Unbroken front) (breaks : t.breaksLine)
    (rest : Span) : lines (front ++ t :: rest) = (front ++ [t]) :: lines rest := by
  induction front with
  | nil => simp [lines, breaks]
  | cons u front ih =>
    obtain ⟨here, later⟩ := List.forall_mem_cons.mp unbroken
    rw [List.cons_append, lines, if_neg (by simp [here]), ih later]
    rfl

theorem lines_flatten (span : Span) : span.lines.flatten = span := by
  induction span using line_induction with
  | last front unbroken =>
    by_cases nonempty : front = []
    · simp [nonempty, lines]
    · simp [lines_unbroken unbroken nonempty]
  | line front t rest unbroken breaks ih => simp [lines_broken unbroken breaks, ih]

theorem text_flatten (spans : List Span) :
    Span.text spans.flatten = String.join (spans.map Span.text) := by
  induction spans with
  | nil => simp
  | cons span spans ih => simp [ih]

variable {span indent kept : Span}

theorem EndsBlank.isWhitespace (h : span.EndsBlank) (unbroken : Unbroken span) :
    ∀ t ∈ span, t.isWhitespace := by
  obtain ⟨earlier, blanks, rfl, white, ends⟩ := h
  cases last : earlier.getLast? with
  | none =>
    rw [List.getLast?_eq_none_iff.mp last]
    exact white
  | some t =>
    have inside := unbroken t (List.mem_append_left _ (List.mem_of_getLast? last))
    rw [ends t last] at inside
    cases inside

theorem EndsBlank.of_append {front : Span} (breaks : t.breaksLine)
    (h : EndsBlank (front ++ t :: span)) : EndsBlank span := by
  obtain ⟨earlier, blanks, split, white, ends⟩ := h
  rcases List.append_eq_append_iff.mp split with ⟨more, rfl, same⟩ | ⟨more, rfl, same⟩
  · cases more with
    | nil =>
      have inside := white t ((show t :: span = blanks from same) ▸ List.mem_cons_self)
      rw [Trivia.not_isWhitespace_of_breaksLine breaks] at inside
      cases inside
    | cons u more =>
      obtain ⟨rfl, rfl⟩ := List.cons.inj same
      refine ⟨more, blanks, rfl, white, fun x last => ends x ?_⟩
      rw [List.getLast?_append, List.getLast?_cons, last]
      rfl
  · have inside := white t (by simp [same])
    rw [Trivia.not_isWhitespace_of_breaksLine breaks] at inside
    cases inside

theorem MarkersAlone.front {front rest : Span} (h : MarkersAlone (front ++ rest))
    (unbroken : Unbroken front) (marked : ¬ front.Unmarked) :
    ∃ indent marker, front = indent ++ [marker] ∧ (∀ t ∈ indent, t.isWhitespace) ∧
      marker.isRegionMarker ∧ ∀ t ∈ rest.head?, t.isEndOfLine := by
  obtain ⟨marker, inside, isMarker⟩ : ∃ t ∈ front, t.isRegionMarker := by
    simpa [Unmarked] using marked
  obtain ⟨indent, behind, rfl⟩ := List.append_of_mem inside
  obtain ⟨blank, ended⟩ := h indent marker (behind ++ rest) (by simp) isMarker
  have white := blank.isWhitespace fun t mem => unbroken t (List.mem_append_left _ mem)
  cases behind with
  | nil => exact ⟨indent, marker, rfl, white, isMarker, ended⟩
  | cons u behind =>
    have inline := unbroken u (by simp)
    rw [Trivia.breaksLine_of_isEndOfLine (ended u (by simp))] at inline
    cases inline

theorem MarkersAlone.rest {front rest : Span} (h : MarkersAlone (front ++ t :: rest))
    (breaks : t.breaksLine) : MarkersAlone rest := by
  rintro earlier marker later rfl isMarker
  obtain ⟨blank, ended⟩ := h (front ++ t :: earlier) marker later (by simp) isMarker
  exact ⟨blank.of_append breaks, ended⟩

def KeptLines (kept : Span) : Prop :=
  ∀ t ∈ kept.head?, t.isWhitespace = false

theorem unmarked_of_white (white : ∀ t ∈ indent, t.isWhitespace) : indent.Unmarked :=
  fun t mem => Trivia.not_isRegionMarker_of_isWhitespace (white t mem)

theorem stripRegionsFrom_marker (white : ∀ t ∈ indent, t.isWhitespace) {marker : Trivia}
    (isMarker : marker.isRegionMarker) (keptLines : KeptLines kept) (removed : Nat) (rest : Span) :
    stripRegionsFrom kept false removed (indent ++ marker :: rest) =
      stripRegionsFrom kept true (removed + 1) rest := by
  have popped : (indent.reverse ++ kept).dropWhile Trivia.isWhitespace = kept := by
    rw [List.dropWhile_append_of_pos fun t mem => white t (List.mem_reverse.mp mem)]
    cases kept with
    | nil => rfl
    | cons t kept => rw [List.dropWhile_cons_of_neg (by simp [keptLines t rfl])]
  rw [stripRegionsFrom_append_of_unmarked (unmarked_of_white white), stripRegionsFrom, if_neg (by simp),
    if_pos isMarker, popped]

def otherLines (span : Span) : List Span :=
  span.lines.filter fun line => line.Unmarked

theorem countP_of_unmarked (unmarked : span.Unmarked) : span.countP Trivia.isRegionMarker = 0 :=
  List.countP_eq_zero.mpr fun t mem => by simp [unmarked t mem]

/-- Where the kept trivia end with a whole line, the other lines of a span are added to them, and
every region marker is counted. -/
theorem stripRegionsFrom_lines (alone : MarkersAlone span) (keptLines : KeptLines kept)
    (removed : Nat) : stripRegionsFrom kept false removed span =
      (kept.reverse ++ span.otherLines.flatten, removed + span.countP Trivia.isRegionMarker) := by
  induction span using line_induction generalizing kept removed with
  | last front unbroken =>
    by_cases unmarked : front.Unmarked
    · have whole : front.otherLines.flatten = front := by
        by_cases nonempty : front = []
        · simp [nonempty, otherLines, lines]
        · simp [otherLines, lines_unbroken unbroken nonempty, unmarked]
      rw [stripRegionsFrom_of_unmarked unmarked, whole, countP_of_unmarked unmarked, Nat.add_zero]
    · rw [← List.append_nil front] at alone
      obtain ⟨indent, marker, rfl, white, isMarker, -⟩ := alone.front unbroken unmarked
      rw [stripRegionsFrom_marker white isMarker keptLines]
      simp [stripRegionsFrom, otherLines, lines_unbroken unbroken, unmarked, isMarker,
        countP_of_unmarked (unmarked_of_white white)]
  | line front t rest unbroken breaks ih =>
    have plain := Trivia.not_isRegionMarker_of_breaksLine breaks
    by_cases unmarked : front.Unmarked
    · have line : Unmarked (front ++ [t]) := by
        simpa [Unmarked, or_imp, forall_and, plain] using unmarked
      have others : otherLines (front ++ t :: rest) = (front ++ [t]) :: rest.otherLines := by
        rw [otherLines, lines_broken unbroken breaks, List.filter_cons_of_pos (by simpa using line),
          otherLines]
      have ends : KeptLines ((front ++ [t]).reverse ++ kept) := by
        simp [KeptLines, Trivia.not_isWhitespace_of_breaksLine breaks]
      rw [others, List.append_cons, stripRegionsFrom_append_of_unmarked line,
        ih (alone.rest breaks) ends, List.countP_append, countP_of_unmarked line]
      simp
    · obtain ⟨indent, marker, rfl, white, isMarker, ended⟩ := alone.front unbroken unmarked
      have line : ¬ Unmarked (indent ++ [marker] ++ [t]) := fun none => by
        simpa [isMarker] using none marker (by simp)
      have others : otherLines (indent ++ [marker] ++ t :: rest) = rest.otherLines := by
        rw [otherLines, lines_broken unbroken breaks, List.filter_cons_of_neg (by simpa using line),
          otherLines]
      rw [others, List.append_assoc, List.singleton_append,
        stripRegionsFrom_marker white isMarker keptLines, stripRegionsFrom,
        if_pos (by simp [ended t rfl]), ih (alone.rest breaks) keptLines, List.countP_append,
        countP_of_unmarked (unmarked_of_white white)]
      simp only [List.countP_cons, isMarker, plain, if_true, Bool.false_eq_true, if_false]
      rw [Nat.add_assoc, Nat.zero_add, Nat.add_comm 1]

theorem isRegionLine_of_marked (alone : MarkersAlone span) :
    ∀ line ∈ span.lines, ¬ line.Unmarked → IsRegionLine line := by
  induction span using line_induction with
  | last front unbroken =>
    by_cases nonempty : front = []
    · simp [nonempty, lines]
    · rw [lines_unbroken unbroken nonempty, List.forall_mem_singleton]
      intro marked
      rw [← List.append_nil front] at alone
      obtain ⟨indent, marker, whole, white, isMarker, -⟩ := alone.front unbroken marked
      exact ⟨indent, marker, [], whole, white, isMarker, by simp⟩
  | line front t rest unbroken breaks ih =>
    rw [lines_broken unbroken breaks, List.forall_mem_cons]
    refine ⟨fun marked => ?_, ih (alone.rest breaks)⟩
    have inFront : ¬ front.Unmarked := by
      simpa [Unmarked, or_imp, forall_and, Trivia.not_isRegionMarker_of_breaksLine breaks]
        using marked
    obtain ⟨indent, marker, rfl, white, isMarker, ended⟩ := alone.front unbroken inFront
    exact ⟨indent, marker, [t], by simp, white, isMarker, by simp [ended t rfl]⟩

/-- Where every region marker has its line to itself, dropping the markers drops these lines, each of
which is white space, the marker and the end of the line; all other lines of the span and of its text
stay as they are, in order. -/
theorem stripRegions_lines {span : Span} (alone : MarkersAlone span) :
    (stripRegions span).2 = span.countP Trivia.isRegionMarker ∧
      (stripRegions span).1 = span.otherLines.flatten ∧
      (stripRegions span).1.text = String.join (span.otherLines.map Span.text) ∧
      span.lines.flatten = span ∧ ∀ line ∈ span.lines, ¬ line.Unmarked → IsRegionLine line := by
  have stripped : stripRegions span =
      (span.otherLines.flatten, span.countP Trivia.isRegionMarker) := by
    have unkept : KeptLines [] := by simp [KeptLines]
    rw [stripRegions, stripRegionsFrom_lines alone unkept, List.reverse_nil, List.nil_append,
      Nat.zero_add]
  rw [stripped]
  exact ⟨rfl, rfl, text_flatten _, lines_flatten span, isRegionLine_of_marked alone⟩

/-- Two region lines, the second at the end of the span, around a comment that is indented. -/
theorem stripRegions_lines_around_comment :
    let span : Span := [⟨.whitespace, "  "⟩, ⟨.directive .region, "#region A"⟩, ⟨.endOfLine, "\n"⟩,
      ⟨.whitespace, "  "⟩, ⟨.lineComment, "// a"⟩, ⟨.endOfLine, "\n"⟩, ⟨.whitespace, " "⟩,
      ⟨.directive .endRegion, "#endregion"⟩]
    MarkersAlone span ∧ stripRegions span =
      ([⟨.whitespace, "  "⟩, ⟨.lineComment, "// a"⟩, ⟨.endOfLine, "\n"⟩], 2) := by
  intro span
  have alone : MarkersAlone span := by
    intro earlier marker later split isMarker
    have front : earlier = span.take earlier.length := by simp [split]
    have behind : marker :: later = span.drop earlier.length := by simp [split]
    have inside : earlier.length < 8 := by
      have := congrArg List.length split
      simp [span] at this
      omega
    have places : ∀ n < 8, (span.drop n).head?.any Trivia.isRegionMarker → n = 1 ∨ n = 7 := by
      decide
    have here := places earlier.length inside (by rw [← behind]; exact isMarker)
    generalize earlier.length = n at front behind here
    subst front
    rcases here with rfl | rfl
    · obtain ⟨rfl, rfl⟩ := List.cons.inj behind
      exact ⟨⟨[], span.take 1, rfl, by decide, by decide⟩, by decide⟩
    · obtain ⟨rfl, rfl⟩ := List.cons.inj behind
      exact ⟨⟨span.take 6, (span.drop 6).take 1, rfl, by decide, by decide⟩, by decide⟩
  obtain ⟨count, rest, -⟩ := stripRegions_lines alone
  exact ⟨alone, Prod.ext (rest.trans (by decide)) (count.trans (by decide))⟩

end Span

end CSharpTidy
