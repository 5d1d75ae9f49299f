import CSharpTidy.Proofs.ReadParts
import CSharpTidy.Proofs.TrimmedText

/- When spacing leaves a list of parts alone. A part is printed as blanks, a core and blanks again,
   and spacing rewrites the blanks only, so texts are compared gap by gap. -/
namespace CSharpTidy

def Spacing.Holds (ending : String) : Spacing → Span → Prop
  | .free, _ => True
  | .packed, span => span.Packed
  | .spaced, span => ∃ rest : Span, span = .lineEnd ending :: rest ∧ rest.Packed

/-- A part between the texts `ahead` and `behind` has nothing to be rewritten: the file does not
start with a blank line, and it does not matter how its last line ends. -/
structure Part.Spaced (ending ahead behind : String) (p : Part) : Prop where
  leading : p.spacing.Holds ending p.leading ∨ ahead = "" ∧ p.leading.Packed
  indent : ∀ w, p.indent = some w → w = ""
  trailing : p.ends → p.trailing.EndsOnce ending ∨
    ∀ c ∈ (Span.text p.trailing.blanksBehind ++ behind).toList, Text.isBlank c

def Part.SpacedAll (ending ahead : String) : List Part → String → Prop
  | [], _ => True
  | p :: rest, behind => p.Spaced ending ahead (printAll rest ++ behind) ∧
      SpacedAll ending (ahead ++ p.print) rest behind

theorem Trivia.eq_lineEnd {t : Trivia} (h : t.isEndOfLine) : t = .lineEnd t.text := by
  obtain ⟨kind, text⟩ := t
  simp only [Trivia.isEndOfLine, beq_iff_eq] at h
  rw [Trivia.lineEnd, h]

variable {ending : String} {span : Span}

namespace Span

theorem text_eq_nil (lexed : ∀ t ∈ span, t.Lexed) (blank : ∀ t ∈ span, t.isBlank)
    (h : (Span.text span).toList = []) : span = [] := by
  cases span with
  | nil => rfl
  | cons t rest =>
    have first := lexed t (by simp)
    rw [text_cons, String.toList_append, List.append_eq_nil_iff] at h
    have kind := blank t (by simp)
    simp only [Trivia.isBlank, Bool.or_eq_true] at kind
    rcases kind with white | ends
    · exact absurd h.1 (first.whitespace white).1
    · obtain ⟨a, more, text, -⟩ := (first.endOfLine ends).exists_cons
      rw [text] at h
      cases h.1

theorem isVoid_text (lexed : ∀ t ∈ span, t.Lexed) (blank : ∀ t ∈ span, t.isBlank) :
    ∀ c ∈ (Span.text span).toList, isVoid c := by
  induction span with
  | nil => simp
  | cons t rest ih =>
    rw [List.forall_mem_cons] at lexed blank
    rw [text_cons, String.toList_append, List.forall_mem_append]
    refine ⟨fun c mem => ?_, ih lexed.2 blank.2⟩
    have kind := blank.1
    simp only [Trivia.isBlank, Bool.or_eq_true] at kind
    rcases kind with white | ends
    · exact isVoid_of_isSpace ((lexed.1.whitespace white).2 c mem)
    · exact (lexed.1.endOfLine ends).isVoid c mem

theorem blanksBefore_subset (span : Span) : ∀ t ∈ span.blanksBefore, t ∈ span :=
  fun _ mem => (List.takeWhile_prefix _).subset mem

theorem blanksBehind_subset (span : Span) : ∀ t ∈ span.blanksBehind, t ∈ span :=
  fun _ mem => (List.rtakeWhile_suffix ..).subset mem

theorem LexedTrailing.blanksBehind_of_endsLine (lexed : span.LexedTrailing) (ends : span.endsLine) :
    ∃ (spaces : Span) (text : String),
      span.blanksBehind = spaces ++ [.lineEnd text] ∧ IsTerminator text ∧
      span.getLast? = some (.lineEnd text) ∧ ∀ t ∈ spaces, t.Lexed ∧ t.isWhitespace := by
  cases span using List.reverseRecOn with
  | nil => cases ends
  | append_singleton init t =>
    have last : t.isEndOfLine := by simpa [endsLine] using ends
    have inline : ∀ u ∈ init, u.isEndOfLine = false := by simpa using lexed.inline
    have text := (lexed.pieces t (by simp)).endOfLine last
    rw [Trivia.eq_lineEnd last]
    refine ⟨init.rtakeWhile Trivia.isBlank, t.text, ?_, text, by simp, fun u mem => ?_⟩
    · rw [blanksBehind, List.rtakeWhile_concat_pos _ _ _ rfl]
    · have inInit := (List.rtakeWhile_suffix ..).subset mem
      refine ⟨lexed.pieces u (by simp [inInit]), ?_⟩
      have blank : u.isBlank := List.mem_rtakeWhile_imp mem
      simpa [Trivia.isBlank, inline u inInit] using blank

theorem LexedTrailing.blanksBehind_of_inline (lexed : span.LexedTrailing)
    (inline : span.endsLine = false) : ∀ t ∈ span.blanksBehind, t.Lexed ∧ t.isWhitespace := by
  intro t mem
  have inSpan := blanksBehind_subset span t mem
  refine ⟨lexed.pieces t inSpan, ?_⟩
  have notEnd : t.isEndOfLine = false := by
    cases span using List.reverseRecOn with
    | nil => cases inSpan
    | append_singleton init last =>
      rcases List.mem_append.mp inSpan with early | final
      · exact lexed.inline t (by simpa using early)
      · rw [List.mem_singleton.mp final]
        simpa [endsLine] using inline
  simpa [Trivia.isBlank, notEnd] using blanksBehind_blank t mem

theorem exists_blanksBefore (span : Span) :
    ∃ dropped : Span, span.blanksBefore = dropped ++ span.stripLeading.blanksBefore := by
  obtain ⟨indent, strip, ⟨dropped, cut⟩, white, -⟩ := exists_stripLeading span
  refine ⟨dropped, ?_⟩
  rw [strip, blanksBefore_append_of_blank fun t mem => Trivia.isBlank_of_isWhitespace (white t mem),
    blanksBefore_content, List.append_nil, cut]

theorem stripLeading_eq_append (span : Span) :
    span.stripLeading = span.stripLeading.blanksBefore ++ span.content := by
  rw [← content_stripLeading, blanksBefore_append_content]

theorem LexedLeading.stripLeading_of_packed (lexed : span.LexedLeading) (packed : span.Packed) :
    span.stripLeading = span := by
  refine (stripLeading_eq_self_iff span).mpr ⟨packed, fun none => ?_⟩
  have white : ∀ t ∈ span, t.isWhitespace := by
    have whole := blanksBefore_append_content span
    rw [none, List.append_nil] at whole
    rwa [Packed, whole] at packed
  rcases span with _ | ⟨a, _ | ⟨b, rest⟩⟩
  · simp
  · simp
  · have := (List.isChain_cons_cons.mp lexed.apart).1.spaces (white a (by simp))
    rw [white b (by simp)] at this
    cases this

theorem LexedLeading.tail {t : Trivia} {rest : Span} (lexed : Span.LexedLeading (t :: rest)) :
    rest.LexedLeading :=
  ⟨fun u mem => lexed.pieces u (by simp [mem]), lexed.apart.tail⟩

theorem eq_lineEnd_of_text (terminator : IsTerminator ending) (lexed : span.LexedLeading)
    (blank : ∀ t ∈ span, t.isBlank) (text : (Span.text span).toList = ending.toList) :
    span = [.lineEnd ending] := by
  obtain ⟨a, endingRest, endingText, breaks⟩ := terminator.exists_cons
  cases span with
  | nil =>
    rw [endingText] at text
    cases text
  | cons t rest =>
    have first := lexed.pieces t (by simp)
    rw [text_cons, String.toList_append] at text
    have kind := blank t (by simp)
    simp only [Trivia.isBlank, Bool.or_eq_true] at kind
    rcases kind with white | ends
    · obtain ⟨nonempty, spaces⟩ := first.whitespace white
      obtain ⟨x, xs, textT⟩ := List.exists_cons_of_ne_nil nonempty
      rw [textT, endingText, List.cons_append, List.cons.injEq] at text
      have space := spaces x (by simp [textT])
      rw [text.1, isSpace_eq_false_of_isLineBreak (breaks a (by simp))] at space
      cases space
    · have terminatorT := first.endOfLine ends
      rw [← List.append_nil ending.toList] at text
      have eqT := Trivia.eq_lineEnd ends
      rcases terminatorT.append_inj terminator text with ⟨same, none⟩ | ⟨lone, -, half⟩ | ⟨-, -, none⟩
      · rw [text_eq_nil (fun u mem => lexed.pieces u (by simp [mem]))
          (fun u mem => blank u (by simp [mem])) none, eqT, same]
      · -- a carriage return and a line feed are not lexed as two line ends
        cases rest with
        | nil => cases half
        | cons u more =>
          have second := lexed.pieces u (by simp)
          have kindU := blank u (by simp)
          simp only [Trivia.isBlank, Bool.or_eq_true] at kindU
          rw [text_cons, String.toList_append] at half
          have lineFeed : IsTerminator "\n" := .inl rfl
          rcases kindU with whiteU | endsU
          · obtain ⟨nonempty, spaces⟩ := second.whitespace whiteU
            obtain ⟨x, xs, textU⟩ := List.exists_cons_of_ne_nil nonempty
            rw [textU, List.cons_append, List.cons.injEq] at half
            have space := spaces x (by simp [textU])
            rw [half.1] at space
            exact absurd space (by decide)
          · have apart := (List.isChain_cons_cons.mp lexed.apart).1
            rcases (second.endOfLine endsU).append_inj lineFeed half with
              ⟨same, -⟩ | ⟨-, wrong, -⟩ | ⟨-, wrong, -⟩
            · exact absurd ((Trivia.eq_lineEnd endsU).trans (by rw [same]))
                (apart.breaks (eqT.trans (by rw [lone])))
            · simp at wrong
            · simp at wrong
      · cases none

end Span

namespace Spacing

variable {spacing : Spacing}

theorem apply_of_holds (lexed : span.LexedLeading) (h : spacing.Holds ending span) :
    spacing.apply ending span = span := by
  cases spacing with
  | free => rfl
  | packed => exact lexed.stripLeading_of_packed h
  | spaced =>
    obtain ⟨rest, rfl, packed⟩ := h
    exact (Span.oneLeading_eq_self_iff ..).mpr ⟨rest, rfl, lexed.tail.stripLeading_of_packed packed⟩

theorem blanksBefore_oneLeading (ending : String) (span : Span) :
    (span.oneLeading ending).blanksBefore = .lineEnd ending :: span.stripLeading.blanksBefore := by
  have blank : ∀ t ∈ [Trivia.lineEnd ending], t.isBlank := by
    simp [Trivia.lineEnd, Trivia.isBlank, Trivia.isEndOfLine]
  exact Span.blanksBefore_append_of_blank blank _

theorem text_blanksBefore_oneLeading (ending : String) (span : Span) :
    (Span.text (span.oneLeading ending).blanksBefore).toList =
      ending.toList ++ (Span.text span.stripLeading.blanksBefore).toList := by
  rw [blanksBefore_oneLeading, Span.text_cons, String.toList_append]
  rfl

theorem holds_of_text (terminator : IsTerminator ending) (lexed : span.LexedLeading)
    (h : (Span.text span.blanksBefore).toList =
      (Span.text (spacing.apply ending span).blanksBefore).toList) : spacing.Holds ending span := by
  obtain ⟨dropped, blanks⟩ := span.exists_blanksBefore
  have cut : dropped <+: span := by
    refine List.IsPrefix.trans ?_ (List.takeWhile_prefix Trivia.isBlank)
    exact ⟨_, blanks.symm⟩
  have blank : ∀ t ∈ dropped, t.isBlank := fun t mem =>
    Span.blanksBefore_blank t (by rw [blanks]; exact List.mem_append_left _ mem)
  have lexedDropped : Span.LexedLeading dropped :=
    ⟨fun t mem => lexed.pieces t (cut.subset mem), lexed.apart.prefix cut⟩
  rw [blanks, Span.text_append, String.toList_append] at h
  cases spacing with
  | free => trivial
  | packed =>
    rw [apply_packed] at h
    have none := Span.text_eq_nil lexedDropped.pieces blank (List.append_left_eq_self.mp h)
    rw [Holds, Span.Packed, blanks, none, List.nil_append]
    exact Span.packed_stripLeading span
  | spaced =>
    rw [apply_spaced, text_blanksBefore_oneLeading] at h
    have one := Span.eq_lineEnd_of_text terminator lexedDropped blank (List.append_cancel_right h)
    refine ⟨span.stripLeading, ?_, Span.packed_stripLeading span⟩
    have whole := Span.blanksBefore_append_content span
    rw [blanks, one, List.append_assoc, ← Span.stripLeading_eq_append] at whole
    exact whole.symm

end Spacing

namespace Part

def ahead (p : Part) : List Char :=
  (Span.text p.leading.blanksBefore).toList

def core (p : Part) : List Char :=
  (Span.text p.leading.content ++ p.text ++ Span.text p.trailing.contentEnd).toList

def behind (p : Part) : List Char :=
  (Span.text p.trailing.blanksBehind).toList

theorem print_toList (p : Part) : p.print.toList = p.ahead ++ (p.core ++ p.behind) := by
  have leading := congrArg Span.text p.leading.blanksBefore_append_content
  have trailing := congrArg Span.text p.trailing.contentEnd_append_blanksBehind
  rw [Span.text_append] at leading trailing
  simp only [print, ahead, core, behind, ← leading, ← trailing, String.toList_append,
    List.append_assoc]

theorem behind_space (ending : String) (p : Part) :
    (p.space ending).behind = if p.ends then ending.toList else p.behind := by
  simp only [behind, space, spaceTrailing, Span.endWhen]
  split
  · simp [Trivia.lineEnd]
  · rfl

/-- A part that is given an indentation stands in its line, so that no trivia lead it. -/
def Inside (p : Part) : Prop :=
  p.indent ≠ none → p.leading = []

variable {p q : Part} {w : String}

theorem spaceLeading_of_none (ending : String) (h : p.indent = none) :
    p.spaceLeading ending = p.spacing.apply ending p.leading := by
  rw [spaceLeading, h]

theorem spaceLeading_of_some (ending : String) (inside : p.Inside) (h : p.indent = some w) :
    p.spaceLeading ending =
      (if p.spacing = .spaced then [.lineEnd ending] else []) ++
        (if w.isEmpty then [] else [⟨.whitespace, w⟩]) := by
  have none := inside (by simp [h])
  rw [spaceLeading, h, none]
  cases spacing : p.spacing with
  | free => simp [Span.setIndent]
  | packed => simp [Span.setIndent, Span.stripLeading]
  | spaced =>
    simp [Span.setIndent, Span.oneLeading, Span.stripLeading, Trivia.lineEnd, Trivia.isEndOfLine]

theorem core_space (ending : String) (inside : p.Inside) : (p.space ending).core = p.core := by
  have leading : (p.spaceLeading ending).content = p.leading.content := by
    cases indent : p.indent with
    | none =>
      rw [spaceLeading_of_none ending indent]
      cases p.spacing <;> simp
    | some w =>
      rw [spaceLeading_of_some ending inside indent, inside (by simp [indent])]
      refine (List.dropWhile_eq_nil_iff.mpr fun t mem => ?_).trans rfl
      simp only [List.mem_append] at mem
      rcases mem with mem | mem <;> split at mem <;> simp_all [Trivia.lineEnd, Trivia.isBlank,
        Trivia.isEndOfLine, Trivia.isWhitespace]
  have trailing : (p.spaceTrailing ending).contentEnd = p.trailing.contentEnd := by
    rw [spaceTrailing, Span.endWhen]
    split <;> simp
  simp only [core, space, leading, trailing]

theorem Lexed.exists_core (lexed : p.Lexed) :
    ∃ v x d, p.core = v ++ x :: d ∧ (∀ c ∈ v, isVoid c) ∧ isVoid x = false := by
  obtain ⟨a, head, solid⟩ := lexed.text
  have mem : a ∈ p.core := by
    have := List.mem_of_mem_head? head
    simp [core, this]
  have found : p.core.dropWhile isVoid ≠ [] := by
    intro none
    have := List.dropWhile_eq_nil_iff.mp none a mem
    simp [solid] at this
  obtain ⟨x, d, cons⟩ := List.exists_cons_of_ne_nil found
  refine ⟨p.core.takeWhile isVoid, x, d, ?_, fun c mem => List.mem_takeWhile_imp mem, ?_⟩
  · rw [← cons, List.takeWhile_append_dropWhile]
  · have := List.head?_dropWhile_not isVoid p.core
    simpa [cons] using this

theorem Lexed.isVoid_ahead (lexed : p.Lexed) : ∀ c ∈ p.ahead, isVoid c :=
  Span.isVoid_text (fun t mem => lexed.leading.pieces t (Span.blanksBefore_subset _ t mem))
    Span.blanksBefore_blank

theorem Lexed.isVoid_behind (lexed : p.Lexed) : ∀ c ∈ p.behind, isVoid c :=
  Span.isVoid_text (fun t mem => lexed.trailing.pieces t (Span.blanksBehind_subset _ t mem))
    Span.blanksBehind_blank

theorem ahead_space_of_none (ending : String) (h : p.indent = none) :
    (p.space ending).ahead =
      (Span.text (p.spacing.apply ending p.leading).blanksBefore).toList := by
  rw [ahead, space, spaceLeading_of_none ending h]

theorem ahead_space_of_some (ending : String) (inside : p.Inside) (h : p.indent = some w) :
    (p.space ending).ahead = (if p.spacing = .spaced then ending.toList else []) ++ w.toList := by
  have blank : ∀ t ∈ p.spaceLeading ending, t.isBlank := by
    intro t mem
    rw [spaceLeading_of_some ending inside h] at mem
    simp only [List.mem_append] at mem
    rcases mem with mem | mem <;> split at mem <;> simp_all [Trivia.lineEnd, Trivia.isBlank,
      Trivia.isEndOfLine, Trivia.isWhitespace]
  have all : (p.spaceLeading ending).blanksBefore = p.spaceLeading ending :=
    List.takeWhile_eq_self_iff.mpr blank
  have text : (p.space ending).ahead = (Span.text (p.spaceLeading ending)).toList := by
    rw [← all]
    rfl
  rw [text, spaceLeading_of_some ending inside h]
  by_cases spaced : p.spacing = .spaced <;> by_cases empty : w.isEmpty <;>
    simp_all [Trivia.lineEnd]

theorem isSpace_ahead_packed (lexed : span.LexedLeading) :
    ∀ c ∈ (Span.text span.stripLeading.blanksBefore).toList, isSpace c := by
  obtain ⟨dropped, blanks⟩ := span.exists_blanksBefore
  refine Span.isSpace_text fun t mem => ⟨lexed.pieces t ?_, Span.packed_stripLeading span t mem⟩
  refine Span.blanksBefore_subset span t ?_
  rw [blanks]
  exact List.mem_append_right _ mem

theorem Lexed.isVoid_ahead_space (terminator : IsTerminator ending) (lexed : p.Lexed)
    (inside : p.Inside) : ∀ c ∈ (p.space ending).ahead, isVoid c := by
  cases indent : p.indent with
  | some w =>
    rw [ahead_space_of_some ending inside indent, List.forall_mem_append]
    refine ⟨fun c mem => ?_, fun c mem => isVoid_of_isSpace (lexed.indent w indent c mem)⟩
    split at mem
    · exact terminator.isVoid c mem
    · cases mem
  | none =>
    rw [ahead_space_of_none ending indent]
    have packed := isSpace_ahead_packed lexed.leading
    cases p.spacing with
    | free => exact lexed.isVoid_ahead
    | packed => exact fun c mem => isVoid_of_isSpace (packed c mem)
    | spaced =>
      rw [Spacing.apply_spaced, Spacing.text_blanksBefore_oneLeading, List.forall_mem_append]
      exact ⟨terminator.isVoid, fun c mem => isVoid_of_isSpace (packed c mem)⟩

theorem Lexed.isVoid_behind_space (terminator : IsTerminator ending) (lexed : p.Lexed) :
    ∀ c ∈ (p.space ending).behind, isVoid c := by
  rw [behind_space]
  split
  · exact terminator.isVoid
  · exact lexed.isVoid_behind

theorem behind_of_endsOnce (h : p.trailing.EndsOnce ending) : p.behind = ending.toList := by
  have once : p.trailing.blanksBehind = [.lineEnd ending] := h
  simp [behind, once, Trivia.lineEnd]

theorem Lexed.behind_cases (terminator : IsTerminator ending) (lexed : p.Lexed) {s t : List Char}
    (h : p.behind ++ s = ending.toList ++ t) (stops : p.trailing.endsLine = false → s = []) :
    ∃ text, p.trailing.blanksBehind = [.lineEnd text] ∧ IsTerminator text ∧
      p.trailing.getLast? = some (.lineEnd text) ∧ text.toList ++ s = ending.toList ++ t := by
  obtain ⟨a, rest, endingText, breaks⟩ := terminator.exists_cons
  have notSpace := isSpace_eq_false_of_isLineBreak (breaks a (by simp))
  cases ends : p.trailing.endsLine with
  | false =>
    have spaces := Span.isSpace_text (lexed.trailing.blanksBehind_of_inline ends)
    rw [stops ends, List.append_nil, endingText] at h
    have space := spaces a (by rw [← behind, h]; simp)
    rw [notSpace] at space
    cases space
  | true =>
    obtain ⟨white, text, blanks, terminatorText, last, spaces⟩ :=
      lexed.trailing.blanksBehind_of_endsLine ends
    have none : white = [] := by
      by_contra some
      obtain ⟨u, more, rfl⟩ := List.exists_cons_of_ne_nil some
      obtain ⟨lexedU, whiteU⟩ := spaces u (by simp)
      obtain ⟨nonempty, spaceU⟩ := lexedU.whitespace whiteU
      obtain ⟨x, xs, textU⟩ := List.exists_cons_of_ne_nil nonempty
      rw [behind, blanks, List.cons_append, Span.text_cons, String.toList_append, textU,
        endingText, List.cons_append, List.cons_append, List.cons_append, List.cons.injEq] at h
      have space := spaceU x (by simp [textU])
      rw [h.1, notSpace] at space
      cases space
    rw [none, List.nil_append] at blanks
    refine ⟨text, blanks, terminatorText, last, ?_⟩
    rw [behind, blanks] at h
    simpa [Trivia.lineEnd] using h

/-- In front of a part spacing changes nothing exactly if the part is spaced there. -/
theorem ahead_space_iff (terminator : IsTerminator ending) (lexed : q.Lexed) (inside : q.Inside) :
    q.ahead = (q.space ending).ahead ↔
      q.spacing.Holds ending q.leading ∧ ∀ w, q.indent = some w → w = "" := by
  cases indent : q.indent with
  | none =>
    rw [ahead_space_of_none ending indent, and_iff_left (by simp)]
    refine ⟨Spacing.holds_of_text terminator lexed.leading, fun holds => ?_⟩
    rw [Spacing.apply_of_holds lexed.leading holds, ahead]
  | some w =>
    have none := inside (by simp [indent])
    have holds : q.spacing.Holds ending [] ↔ q.spacing ≠ .spaced := by
      cases q.spacing <;> simp [Spacing.Holds, Span.Packed, Span.blanksBefore]
    obtain ⟨a, rest, text, -⟩ := terminator.exists_cons
    have empty : q.ahead = [] := by rw [ahead, none]; rfl
    rw [ahead_space_of_some ending inside indent, empty, none, holds, eq_comm,
      List.append_eq_nil_iff]
    simp [text]

theorem ahead_space_ne_cons (lexed : q.Lexed) (flat : q.indent = none) (carriage : ending = "\r") :
    (q.space ending).ahead ≠ '\n' :: q.ahead := by
  intro half
  rw [ahead_space_of_none ending flat] at half
  cases spacing : q.spacing with
  | free =>
    rw [spacing, Spacing.apply_free, ← ahead] at half
    have := congrArg List.length half
    simp at this
  | packed =>
    rw [spacing, Spacing.apply_packed] at half
    exact absurd (isSpace_ahead_packed lexed.leading '\n' (by simp [half])) (by decide)
  | spaced =>
    rw [spacing, Spacing.apply_spaced, Spacing.text_blanksBefore_oneLeading, carriage] at half
    simp at half

/-- Between two parts spacing changes nothing exactly if both are spaced there. -/
theorem gap_iff (terminator : IsTerminator ending) (lexedP : p.Lexed) (lexedQ : q.Lexed)
    (joint : p.trailing.Joint q.leading) (inside : q.indent ≠ none → p.trailing.endsLine = false) :
    p.behind ++ q.ahead = (p.space ending).behind ++ (q.space ending).ahead ↔
      (p.ends → p.trailing.EndsOnce ending) ∧ q.spacing.Holds ending q.leading ∧
        ∀ w, q.indent = some w → w = "" := by
  have insideQ : q.Inside := fun indented => joint.inline (inside indented)
  rw [← ahead_space_iff terminator lexedQ insideQ, behind_space]
  constructor
  · intro same
    cases ends : p.ends with
    | true =>
      rw [ends, if_pos rfl] at same
      have stops : p.trailing.endsLine = false → q.ahead = [] := by
        intro inline
        rw [ahead, joint.inline inline]
        rfl
      obtain ⟨text, blanks, terminatorText, last, same⟩ :=
        lexedP.behind_cases terminator same stops
      have flat : q.indent = none := by
        by_contra indented
        have := inside indented
        simp [Span.endsLine, last, Trivia.lineEnd, Trivia.isEndOfLine] at this
      rcases terminatorText.append_inj terminator same with ⟨rfl, same⟩ | ⟨rfl, rfl, half⟩ |
        ⟨rfl, rfl, half⟩
      · exact ⟨fun _ => blanks, same⟩
      · refine absurd ?_ (joint.whole last)
        have whole := congrArg Span.text q.leading.blanksBefore_append_content
        rw [Span.text_append] at whole
        rw [← whole, String.toList_append, ← ahead, half]
        rfl
      · exact absurd half (ahead_space_ne_cons lexedQ flat rfl)
    | false =>
      rw [ends, if_neg (by simp), List.append_cancel_left_eq] at same
      exact ⟨by simp, same⟩
  · rintro ⟨once, same⟩
    rw [← same, List.append_cancel_right_eq]
    split
    · rename_i ends
      exact behind_of_endsOnce (once ends)
    · rfl

/-- One line end for each namespace without braces that ends with the file. -/
def hollowEnds (ending : String) (k : Nat) : List Char :=
  (List.replicate k ending.toList).flatten

theorem isBlank_hollowEnds (terminator : IsTerminator ending) (k : Nat) :
    ∀ c ∈ hollowEnds ending k, Text.isBlank c := by
  intro c mem
  obtain ⟨line, lines, inLine⟩ := List.mem_flatten.mp mem
  rw [(List.mem_replicate.mp lines).2] at inLine
  exact terminator.isBlank c inLine

theorem hollowEnds_eq_nil_iff (terminator : IsTerminator ending) {k : Nat} :
    hollowEnds ending k = [] ↔ k = 0 := by
  obtain ⟨a, rest, text, -⟩ := terminator.exists_cons
  cases k with
  | zero => simp [hollowEnds]
  | succ k => simp [hollowEnds, List.replicate_succ, text]

@[simp] theorem printAll_hollow (k : Nat) : printAll (List.replicate k hollow) = "" := by
  induction k with
  | zero => rfl
  | succ k ih =>
    rw [List.replicate_succ, printAll, ih]
    rfl

theorem printAll_space_hollow (ending : String) (k : Nat) :
    (printAll ((List.replicate k hollow).map (space ending))).toList = hollowEnds ending k := by
  have one : (hollow.space ending).print = ending := by
    simp [print, space, spaceLeading, spaceTrailing, hollow, Span.endWhen, Span.stripTrailing,
      Trivia.lineEnd]
  induction k with
  | zero => rfl
  | succ k ih =>
    rw [List.replicate_succ, List.map_cons, printAll, String.toList_append, ih, one]
    rfl

theorem spacedAll_hollow (ending ahead behind : String) (k : Nat) :
    SpacedAll ending ahead (List.replicate k hollow) behind ↔
      k = 0 ∨ ∀ c ∈ behind.toList, Text.isBlank c := by
  induction k generalizing ahead with
  | zero => simp [SpacedAll]
  | succ k ih =>
    rw [List.replicate_succ, SpacedAll, ih]
    constructor
    · rintro ⟨spaced, -⟩
      rcases spaced.trailing rfl with once | blank
      · cases once
      · rw [printAll_hollow] at blank
        exact .inr (by simpa [hollow, Span.blanksBehind] using blank)
    · rintro (none | blank)
      · cases none
      · refine ⟨⟨.inl trivial, by simp [hollow], fun _ => .inr ?_⟩, .inr blank⟩
        rw [printAll_hollow]
        simpa [hollow, Span.blanksBehind] using blank

theorem trimEnd_last_iff (terminator : IsTerminator ending) (k : Nat) (tail : Span)
    (lexed : p.Lexed) (d : List Char) (ahead : String) :
    Text.trimEnd (d ++ (p.behind ++ (Span.text tail).toList)) =
        Text.trimEnd (d ++ ((p.space ending).behind ++
          (hollowEnds ending k ++ (Span.text tail).toList))) ↔
      (p.ends → p.trailing.EndsOnce ending ∨
        ∀ c ∈ (Span.text p.trailing.blanksBehind ++ Span.text tail).toList, Text.isBlank c) ∧
        SpacedAll ending ahead (List.replicate k hollow) (Span.text tail) := by
  rw [spacedAll_hollow, behind_space, String.toList_append, List.forall_mem_append, ← behind]
  have hollowBlank := isBlank_hollowEnds terminator k
  by_cases blank : ∀ c ∈ (Span.text tail).toList, Text.isBlank c
  · have trim : ∀ s : List Char, Text.trimEnd (d ++ (s ++ (Span.text tail).toList)) =
        Text.trimEnd (d ++ s) := fun s => by
      rw [← List.append_assoc, Text.trimEnd_append_of_blank _ blank]
    have trimHollow : ∀ s : List Char, Text.trimEnd (d ++ (s ++ (hollowEnds ending k ++
        (Span.text tail).toList))) = Text.trimEnd (d ++ s) := fun s => by
      rw [← List.append_assoc s, trim, ← List.append_assoc, Text.trimEnd_append_of_blank _ hollowBlank]
    rw [trim, trimHollow]
    simp only [eq_true blank, and_true, or_true]
    cases p.ends with
    | false => simp
    | true =>
      simp only [if_true, forall_const]
      rw [Text.trimEnd_append_of_blank _ terminator.isBlank]
      constructor
      · exact fun same => .inr (Text.blank_of_trimEnd_append same)
      · rintro (once | blank)
        · rw [behind_of_endsOnce once, Text.trimEnd_append_of_blank _ terminator.isBlank]
        · exact Text.trimEnd_append_of_blank _ blank
  · have solid : ∃ c ∈ (Span.text tail).toList, Text.isBlank c = false := by simpa using blank
    have trim : ∀ s : List Char, Text.trimEnd (d ++ (s ++ (Span.text tail).toList)) =
        d ++ (s ++ Text.trimEnd (Span.text tail).toList) := fun s => by
      rw [← List.append_assoc, Text.trimEnd_append_of_solid _ solid, List.append_assoc]
    rw [← List.append_assoc _ (hollowEnds ending k), trim, trim, List.append_cancel_left_eq,
      List.append_cancel_right_eq]
    simp only [blank, and_false, or_false]
    cases p.ends with
    | false => simp [hollowEnds_eq_nil_iff terminator]
    | true =>
      simp only [if_true, forall_const]
      constructor
      · intro same
        rw [← List.append_nil p.behind] at same
        obtain ⟨text, blanks, terminatorText, -, same⟩ :=
          lexed.behind_cases terminator same fun _ => rfl
        rcases terminatorText.append_inj terminator same with ⟨rfl, none⟩ | ⟨-, -, half⟩ |
          ⟨-, rfl, half⟩
        · exact ⟨blanks, (hollowEnds_eq_nil_iff terminator).mp none.symm⟩
        · cases half
        · cases k with
          | zero => cases half
          | succ k => simp [hollowEnds, List.replicate_succ] at half
      · rintro ⟨once, rfl⟩
        rw [behind_of_endsOnce once]
        exact (List.append_nil _).symm

theorem String.append_ne_empty {a : String} (b : String) (h : a ≠ "") : a ++ b ≠ "" := by
  intro empty
  exact h (String.append_eq_empty_iff.mp empty).1

theorem trimEnd_print_cons {v core : List Char} {x : Char} (split : q.core = v ++ x :: core)
    (solid : isVoid x = false) (d gap tail : List Char) (rest : List Part) :
    Text.trimEnd (d ++ (gap ++ ((printAll (q :: rest)).toList ++ tail))) =
      d ++ ((gap ++ q.ahead) ++
        (v ++ x :: Text.trimEnd (core ++ (q.behind ++ ((printAll rest).toList ++ tail))))) := by
  have shape : d ++ (gap ++ ((printAll (q :: rest)).toList ++ tail)) = (d ++ (gap ++ q.ahead ++ v)) ++
      x :: (core ++ (q.behind ++ ((printAll rest).toList ++ tail))) := by
    simp [printAll, print_toList, split]
  rw [shape, Text.trimEnd_append_cons _ (not_isBlank_of_solid solid)]
  simp

/-- From behind a part to the end of the text, spacing changes nothing but blanks at the very end
exactly if all that follows is spaced. -/
theorem trimEnd_behind_iff (terminator : IsTerminator ending) {rest : List Part} (k : Nat)
    {tail : Span} (lexed : ∀ q ∈ p :: rest, q.Lexed) (chained : Chained tail (p :: rest))
    (d : List Char) {ahead : String} (started : ahead ≠ "") :
    Text.trimEnd (d ++ (p.behind ++ ((printAll (rest ++ List.replicate k hollow)).toList ++
        (Span.text tail).toList))) =
      Text.trimEnd (d ++ ((p.space ending).behind ++
        ((printAll ((rest ++ List.replicate k hollow).map (space ending))).toList ++
          (Span.text tail).toList))) ↔
      (p.ends → p.trailing.EndsOnce ending ∨
        ∀ c ∈ (Span.text p.trailing.blanksBehind ++
          (printAll (rest ++ List.replicate k hollow) ++ Span.text tail)).toList, Text.isBlank c) ∧
        SpacedAll ending ahead (rest ++ List.replicate k hollow) (Span.text tail) := by
  induction rest generalizing p d ahead with
  | nil =>
    have last := trimEnd_last_iff terminator k tail (lexed p (by simp)) d ahead
    simpa only [List.nil_append, printAll_hollow, printAll_space_hollow, String.empty_append,
      String.toList_empty] using last
  | cons q rest ih =>
    obtain ⟨joint, inside, chained⟩ := chained
    rw [List.forall_mem_cons] at lexed
    have lexedQ := lexed.2 q (by simp)
    have insideQ : q.Inside := fun indented => joint.inline (inside q rfl indented)
    obtain ⟨v, x, core, split, void, solid⟩ := lexedQ.exists_core
    have more := ih lexed.2 chained core (String.append_ne_empty q.print started)
    have gap := gap_iff terminator lexed.1 lexedQ joint (inside q rfl)
    rw [List.cons_append, List.map_cons, trimEnd_print_cons split solid,
      trimEnd_print_cons ((core_space ending insideQ).trans split) solid, List.append_cancel_left_eq]
    have notBlank : ¬ ∀ c ∈ (Span.text p.trailing.blanksBehind ++
        (printAll (q :: (rest ++ List.replicate k hollow)) ++ Span.text tail)).toList,
          Text.isBlank c := by
      intro blank
      have := blank x (by simp [printAll, print_toList, split])
      rw [not_isBlank_of_solid solid] at this
      cases this
    simp only [notBlank, or_false]
    constructor
    · intro same
      obtain ⟨gaps, texts⟩ := gap_cancel
        (List.forall_mem_append.mpr ⟨lexed.1.isVoid_behind, lexedQ.isVoid_ahead⟩)
        (List.forall_mem_append.mpr ⟨lexed.1.isVoid_behind_space terminator,
          lexedQ.isVoid_ahead_space terminator insideQ⟩) void solid same
      obtain ⟨once, holds, indent⟩ := gap.mp gaps
      obtain ⟨ends, all⟩ := more.mp texts
      exact ⟨once, ⟨.inl holds, indent, ends⟩, all⟩
    · rintro ⟨once, ⟨holds, indent, ends⟩, all⟩
      rw [gap.mpr ⟨once, holds.resolve_right fun h => started h.1, indent⟩, more.mpr ⟨ends, all⟩]

end Part

end CSharpTidy
