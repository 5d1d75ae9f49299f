import CSharpTidy.Layout.Spacing
import CSharpTidy.Proofs.SpanContent
import Mathlib.Data.List.DropRight

/- What spacing does to one span. The content of the span stays as it is; the blanks in front of
   it or behind it are rewritten, and a span whose blanks are right already is left alone. -/
namespace CSharpTidy

namespace Span

def content (span : Span) : Span :=
  span.dropWhile Trivia.isBlank

def contentEnd (span : Span) : Span :=
  span.rdropWhile Trivia.isBlank

def blanksBefore (span : Span) : Span :=
  span.takeWhile Trivia.isBlank

def blanksBehind (span : Span) : Span :=
  span.rtakeWhile Trivia.isBlank

theorem blanksBefore_append_content (span : Span) : span.blanksBefore ++ span.content = span :=
  List.takeWhile_append_dropWhile

theorem contentEnd_append_blanksBehind (span : Span) :
    span.contentEnd ++ span.blanksBehind = span :=
  List.rdropWhile_append_rtakeWhile ..

variable {span blanks : Span}

theorem blanksBefore_blank : ∀ t ∈ span.blanksBefore, t.isBlank :=
  fun _ mem => List.mem_takeWhile_imp mem

theorem blanksBehind_blank : ∀ t ∈ span.blanksBehind, t.isBlank :=
  fun _ mem => by
    simp only [blanksBehind, List.rtakeWhile, List.mem_reverse] at mem
    exact List.mem_takeWhile_imp mem

@[simp] theorem content_content (span : Span) : span.content.content = span.content :=
  List.dropWhile_idempotent ..

theorem content_append_of_blank (h : ∀ t ∈ blanks, t.isBlank) (span : Span) :
    content (blanks ++ span) = content span :=
  List.dropWhile_append_of_pos h

theorem blanksBefore_append_of_blank (h : ∀ t ∈ blanks, t.isBlank) (span : Span) :
    blanksBefore (blanks ++ span) = blanks ++ blanksBefore span :=
  List.takeWhile_append_of_pos h

@[simp] theorem blanksBefore_content (span : Span) : span.content.blanksBefore = [] := by
  have whole := blanksBefore_append_content span.content
  rw [content_content] at whole
  exact List.append_left_eq_self.mp whole

/-- Stripping keeps some indentation in front of the content, at most one piece of it where there
is no content. -/
theorem exists_stripLeading (span : Span) : ∃ indent : Span,
    span.stripLeading = indent ++ span.content ∧ indent <:+ span.blanksBefore ∧
      (∀ t ∈ indent, t.isWhitespace) ∧ (span.content = [] → indent.length ≤ 1) := by
  unfold stripLeading content blanksBefore
  split
  · rename_i blank
    have all : span.takeWhile Trivia.isBlank = span :=
      List.takeWhile_eq_self_iff.mpr (List.dropWhile_eq_nil_iff.mp blank)
    refine ⟨(span.getLast?.filter Trivia.isWhitespace).toList, by simp [blank], ?_, ?_, ?_⟩
    · rw [all]
      cases span using List.reverseRecOn with
      | nil => simp
      | append_singleton init t =>
        simp only [List.getLast?_append, List.getLast?_singleton, Option.some_or,
          Option.filter_some]
        split
        · exact List.suffix_append init [t]
        · exact List.nil_suffix
    · intro t mem
      rw [Option.mem_toList, Option.filter_eq_some_iff] at mem
      exact mem.2
    · intro _
      cases span.getLast?.filter Trivia.isWhitespace <;> simp
  · rename_i content found
    refine ⟨(span.takeWhile Trivia.isBlank).rtakeWhile Trivia.isWhitespace, rfl,
      List.rtakeWhile_suffix .., fun t mem => ?_, fun none => absurd none found⟩
    simp only [List.rtakeWhile, List.mem_reverse] at mem
    exact List.mem_takeWhile_imp mem

@[simp] theorem content_stripLeading (span : Span) :
    span.stripLeading.content = span.content := by
  obtain ⟨indent, strip, -, white, -⟩ := exists_stripLeading span
  rw [strip, content_append_of_blank fun t mem => Trivia.isBlank_of_isWhitespace (white t mem),
    content_content]

@[simp] theorem content_oneLeading (ending : String) (span : Span) :
    (span.oneLeading ending).content = span.content := by
  rw [oneLeading, content, List.dropWhile_cons_of_pos rfl]
  exact content_stripLeading span

/-- No line ends in front of the content. -/
def Packed (span : Span) : Prop :=
  ∀ t ∈ span.blanksBefore, t.isWhitespace

theorem packed_stripLeading (span : Span) : span.stripLeading.Packed := by
  obtain ⟨indent, strip, -, white, -⟩ := exists_stripLeading span
  have blank : ∀ t ∈ indent, t.isBlank := fun t mem => Trivia.isBlank_of_isWhitespace (white t mem)
  rw [Packed, strip, blanksBefore_append_of_blank blank, blanksBefore_content, List.append_nil]
  exact white

theorem stripLeading_eq_self_iff (span : Span) :
    span.stripLeading = span ↔ span.Packed ∧ (span.content = [] → span.length ≤ 1) := by
  constructor
  · intro same
    refine ⟨same ▸ packed_stripLeading span, fun none => ?_⟩
    obtain ⟨indent, strip, -, -, short⟩ := exists_stripLeading span
    rw [← same, strip, none, List.append_nil]
    exact short none
  · rintro ⟨packed, short⟩
    unfold stripLeading
    split
    · rename_i none
      match span, short none with
      | [], _ => rfl
      | [t], _ =>
        have blank : t.isBlank := by simpa using List.dropWhile_eq_nil_iff.mp none t
        have white := packed t (by simp [blanksBefore, blank])
        simp [Option.filter_some, white]
    · have kept := (List.rtakeWhile_eq_self_iff (p := Trivia.isWhitespace)).mpr packed
      rw [List.rtakeWhile] at kept
      rw [blanksBefore] at kept
      rw [kept]
      exact List.takeWhile_append_dropWhile

@[simp] theorem stripLeading_stripLeading (span : Span) :
    span.stripLeading.stripLeading = span.stripLeading := by
  refine (stripLeading_eq_self_iff _).mpr ⟨packed_stripLeading span, fun none => ?_⟩
  rw [content_stripLeading] at none
  obtain ⟨indent, strip, -, -, short⟩ := exists_stripLeading span
  rw [strip, none, List.append_nil]
  exact short none

theorem stripLeading_lineEnd_cons (ending : String) (h : span.stripLeading = span) :
    stripLeading (.lineEnd ending :: span) = span := by
  have blank : (Trivia.lineEnd ending).isBlank = true := rfl
  have notWhite : (Trivia.lineEnd ending).isWhitespace = false := rfl
  obtain ⟨packed, short⟩ := (stripLeading_eq_self_iff span).mp h
  unfold stripLeading
  rw [List.dropWhile_cons_of_pos blank, List.takeWhile_cons_of_pos blank]
  split
  · rename_i none
    match span, short none with
    | [], _ => rfl
    | [t], _ =>
      have blank : t.isBlank := by simpa using List.dropWhile_eq_nil_iff.mp none t
      have white := packed t (by simp [blanksBefore, blank])
      simp [Option.filter_some, white]
  · have white : ∀ t ∈ (span.takeWhile Trivia.isBlank).reverse, t.isWhitespace := by
      simpa [Packed, blanksBefore] using packed
    rw [List.reverse_cons, List.takeWhile_append_of_pos white,
      List.takeWhile_cons_of_neg (by simp [notWhite]), List.append_nil, List.reverse_reverse]
    exact List.takeWhile_append_dropWhile

@[simp] theorem stripLeading_oneLeading (ending : String) (span : Span) :
    (span.oneLeading ending).stripLeading = span.stripLeading :=
  stripLeading_lineEnd_cons ending span.stripLeading_stripLeading

theorem oneLeading_eq_self_iff (ending : String) (span : Span) :
    span.oneLeading ending = span ↔
      ∃ rest : Span, span = .lineEnd ending :: rest ∧ rest.stripLeading = rest := by
  constructor
  · intro same
    exact ⟨span.stripLeading, same.symm, span.stripLeading_stripLeading⟩
  · rintro ⟨rest, rfl, packed⟩
    rw [oneLeading, stripLeading_lineEnd_cons ending packed]

def EndsOnce (ending : String) (span : Span) : Prop :=
  span.blanksBehind = [.lineEnd ending]

theorem stripTrailing_eq (ending : String) (span : Span) :
    span.stripTrailing ending = span.contentEnd ++ [.lineEnd ending] := rfl

@[simp] theorem contentEnd_stripTrailing (ending : String) (span : Span) :
    (span.stripTrailing ending).contentEnd = span.contentEnd := by
  rw [stripTrailing_eq, contentEnd, List.rdropWhile_concat_pos _ _ _ rfl]
  exact List.rdropWhile_idempotent ..

@[simp] theorem blanksBehind_stripTrailing (ending : String) (span : Span) :
    (span.stripTrailing ending).blanksBehind = [.lineEnd ending] := by
  have whole := contentEnd_append_blanksBehind (span.stripTrailing ending)
  rw [contentEnd_stripTrailing, stripTrailing_eq] at whole
  exact List.append_cancel_left whole

theorem stripTrailing_eq_self_iff (ending : String) (span : Span) :
    span.stripTrailing ending = span ↔ span.EndsOnce ending := by
  constructor
  · intro same
    rw [EndsOnce, ← same, blanksBehind_stripTrailing]
  · intro once
    rw [stripTrailing_eq, ← once, contentEnd_append_blanksBehind]

/-- What `setIndent` puts in front of the last line. -/
def indentation? (indent : String) : Span :=
  if indent.isEmpty then [] else [⟨.whitespace, indent⟩]

theorem indentation?_white (indent : String) : ∀ t ∈ indentation? indent, t.isWhitespace := by
  unfold indentation?
  split <;> simp [Trivia.isWhitespace]

theorem indentation?_length (indent : String) : (indentation? indent).length ≤ 1 := by
  unfold indentation?
  split <;> simp

theorem exists_lastLine (span : Span) : ∃ before line : Span, span = before ++ line ∧
    (∀ t ∈ line, t.isEndOfLine = false) ∧ (∀ t, before.getLast? = some t → t.isEndOfLine) := by
  refine ⟨span.rdropWhile fun t => !t.isEndOfLine, span.rtakeWhile fun t => !t.isEndOfLine,
    (List.rdropWhile_append_rtakeWhile ..).symm, ?_, ?_⟩
  · intro t mem
    simpa using List.mem_rtakeWhile_imp mem
  · intro t last
    have nonempty : span.rdropWhile (fun t => !t.isEndOfLine) ≠ [] := by
      intro none
      rw [none] at last
      cases last
    have stops := List.rdropWhile_last_not (fun t => !t.isEndOfLine) span nonempty
    rw [List.getLast?_eq_getLast_of_ne_nil nonempty, Option.some.injEq] at last
    rw [last] at stops
    simpa using stops

theorem setIndent_append (indent : String) {before line : Span}
    (inline : ∀ t ∈ line, t.isEndOfLine = false)
    (ended : ∀ t, before.getLast? = some t → t.isEndOfLine) :
    setIndent indent (before ++ line) =
      before ++ (indentation? indent ++ line.dropWhile Trivia.isWhitespace) := by
  have runs : ∀ t ∈ line.reverse, (!t.isEndOfLine) = true := by simpa using inline
  have stops : before.reverse.takeWhile (fun t => !t.isEndOfLine) = [] ∧
      before.reverse.dropWhile (fun t => !t.isEndOfLine) = before.reverse := by
    cases before using List.reverseRecOn with
    | nil => simp
    | append_singleton init t => simp [ended t (by simp)]
  simp only [setIndent, List.reverse_append, List.takeWhile_append_of_pos runs,
    List.dropWhile_append_of_pos runs, stops, List.append_nil, List.reverse_reverse,
    List.append_assoc]
  rfl

theorem setIndent_setIndent (indent : String) (span : Span) :
    setIndent indent (setIndent indent span) = setIndent indent span := by
  obtain ⟨before, line, rfl, inline, ended⟩ := exists_lastLine span
  have white := indentation?_white indent
  have inline' : ∀ t ∈ indentation? indent ++ line.dropWhile Trivia.isWhitespace,
      t.isEndOfLine = false := by
    intro t mem
    rcases List.mem_append.mp mem with first | later
    · have kind := white t first
      simp only [Trivia.isWhitespace, beq_iff_eq] at kind
      simp [Trivia.isEndOfLine, kind]
    · exact inline t ((List.dropWhile_suffix _).subset later)
  rw [setIndent_append indent inline ended, setIndent_append indent inline' ended,
    List.dropWhile_append_of_pos white, List.dropWhile_idempotent]

theorem setIndent_lineEnd_cons (indent ending : String) (span : Span) :
    setIndent indent (.lineEnd ending :: span) = .lineEnd ending :: setIndent indent span := by
  obtain ⟨before, line, rfl, inline, ended⟩ := exists_lastLine span
  have ended' : ∀ t, (Trivia.lineEnd ending :: before).getLast? = some t → t.isEndOfLine := by
    intro t last
    rw [List.getLast?_cons] at last
    cases before using List.reverseRecOn with
    | nil =>
      simp only [List.getLast?_nil, Option.getD_none, Option.some.injEq] at last
      rw [← last]
      rfl
    | append_singleton init u =>
      refine ended t ?_
      simpa using last
  rw [setIndent_append indent inline ended, ← List.cons_append,
    setIndent_append indent inline ended', List.cons_append]

theorem stripLeading_setIndent (indent : String) (h : span.stripLeading = span) :
    stripLeading (setIndent indent span) = setIndent indent span := by
  obtain ⟨packed, -⟩ := (stripLeading_eq_self_iff span).mp h
  obtain ⟨before, line, rfl, inline, ended⟩ := exists_lastLine span
  have white := indentation?_white indent
  have blank : ∀ t ∈ indentation? indent, t.isBlank :=
    fun t mem => Trivia.isBlank_of_isWhitespace (white t mem)
  rw [setIndent_append indent inline ended, stripLeading_eq_self_iff]
  cases before using List.reverseRecOn with
  | nil =>
    -- without a line end every blank is white space
    have rest : ∀ t ∈ blanksBefore (line.dropWhile Trivia.isWhitespace), t.isWhitespace := by
      intro t mem
      have kind : t.isBlank := blanksBefore_blank t mem
      have inLine := (List.dropWhile_suffix Trivia.isWhitespace).subset
        ((List.takeWhile_prefix Trivia.isBlank).subset mem)
      simpa [Trivia.isBlank, inline t inLine] using kind
    rw [List.nil_append, Packed, blanksBefore_append_of_blank blank, content_append_of_blank blank]
    refine ⟨List.forall_mem_append.mpr ⟨white, rest⟩, fun none => ?_⟩
    have all : blanksBefore (line.dropWhile Trivia.isWhitespace) =
        line.dropWhile Trivia.isWhitespace :=
      List.takeWhile_eq_self_iff.mpr (List.dropWhile_eq_nil_iff.mp none)
    rw [all] at rest
    have gone : line.dropWhile Trivia.isWhitespace = [] := by
      rw [← List.dropWhile_idempotent, List.dropWhile_eq_nil_iff]
      exact rest
    rw [gone, List.append_nil]
    exact indentation?_length indent
  | append_singleton init t =>
    -- content stands in front of the last line end, which is no white space
    have ends := ended t (by simp)
    have solid : ∃ u ∈ init ++ [t], u.isBlank = false := by
      by_contra none
      have allBlank : ∀ u ∈ init ++ [t], u.isBlank := by
        intro u mem
        by_contra solid
        exact none ⟨u, mem, by simpa using solid⟩
      have kind := packed t (by
        rw [blanksBefore_append_of_blank allBlank]
        simp)
      simp only [Trivia.isWhitespace, Trivia.isEndOfLine, beq_iff_eq] at kind ends
      rw [kind] at ends
      cases ends
    obtain ⟨u, mem, notBlank⟩ := solid
    have stops : ∀ more : Span, blanksBefore (init ++ [t] ++ more) = blanksBefore (init ++ [t]) := by
      intro more
      rw [blanksBefore, List.takeWhile_append, if_neg, ← blanksBefore]
      intro whole
      have := List.takeWhile_eq_self_iff.mp (List.takeWhile_prefix _ |>.eq_of_length whole) u mem
      rw [notBlank] at this
      cases this
    refine ⟨?_, fun none => ?_⟩
    · rw [Packed, stops, ← stops line]
      exact packed
    · have := List.dropWhile_eq_nil_iff.mp none u (List.mem_append_left _ mem)
      rw [notBlank] at this
      cases this

end Span

end CSharpTidy
