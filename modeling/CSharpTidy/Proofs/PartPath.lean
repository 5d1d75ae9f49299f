import CSharpTidy.Proofs.FlowEnd
import CSharpTidy.Proofs.ReadParts

/- A tidied text read part by part. Each part is read from the state that the part before it leaves,
   and its blanks fit what stands before it: a directive must find the start of a line, and a piece
   that goes on to the end of its line must find that end. -/
namespace CSharpTidy

open CSharpTidy.Span

/-- What stands behind a part: the start of a line, the middle of one, or a piece that goes on to
the end of the line. -/
inductive Gap where
  | fresh | tight | loose
  deriving DecidableEq, Repr

variable {c : Conditional} {span : Span} {q : Place}

namespace Gap

def Fits (g : Gap) (span : Span) : Prop :=
  g = .fresh ∨ g = .tight ∧ span.Inert

/-- The gap that a span without directives leaves behind a token. -/
def Behind (c : Conditional) (span : Span) : Gap → Prop
  | .fresh => Flow true false c span [] c ∧ span.endsLine
  | .tight => Flow false false c span [] c
  | .loose => Flow true false c span [] c

theorem Behind.flow {g : Gap} (h : g.Behind c span) : Flow true false c span [] c := by
  cases g with
  | fresh => exact h.1
  | tight => exact h.atEnd true
  | loose => exact h

theorem not_fits_loose (span : Span) : ¬ Gap.loose.Fits span := by
  simp [Fits]

end Gap

theorem Span.Flow.of_endsLine {next fresh : Bool} {c' : Conditional} {ks : List DirectiveKind}
    (h : Flow next fresh c span ks c') (ends : span = [] ∨ span.endsLine) :
    Flow false fresh c span ks c' := by
  have later : ∀ {t : Trivia} {rest : Span}, endsLine (t :: rest) →
      (rest = [] ∨ rest.endsLine) ∧ (t.isEndOfLine = false → rest ≠ []) := by
    intro t rest ends
    rw [endsLine_cons] at ends
    cases rest with
    | nil => exact ⟨.inl rfl, by simp_all⟩
    | cons next rest => exact ⟨.inr (by simpa using ends), by simp⟩
  have broken : ∀ {rest : Span}, Breaks next rest → rest ≠ [] → Breaks false rest := by
    intro rest breaks nonempty
    cases rest with
    | nil => exact absurd rfl nonempty
    | cons t rest => exact breaks
  induction h with
  | nil => exact .nil _ _
  | space kind spaces _ ih =>
    exact .space kind spaces (ih (later (ends.resolve_left (by simp))).1)
  | lineEnd kind breaks _ ih =>
    exact .lineEnd kind breaks (ih (later (ends.resolve_left (by simp))).1)
  | comment active remark breaks _ ih =>
    obtain ⟨rest, goesOn⟩ := later (ends.resolve_left (by simp))
    exact .comment active remark (fun runsOn => broken (breaks runsOn) (goesOn remark.solid.2.1))
      (ih rest)
  | directive indent line breaks counts applied _ ih =>
    have ends := ends.resolve_left (by simp)
    rw [endsLine_append_cons] at ends
    obtain ⟨rest, goesOn⟩ := later ends
    exact .directive indent line
      (broken breaks (goesOn (by simp [Trivia.isEndOfLine, line.kind]))) counts applied (ih rest)
  | disabled indent starts inactive dead _ ih =>
    have ends := ends.resolve_left (by simp)
    rw [endsLine_append_cons] at ends
    exact .disabled indent starts inactive dead (ih (later ends).1)

theorem Span.Inert.stripLeading (h : span.Inert) : (Span.stripLeading span).Inert := by
  obtain ⟨indent, strip, ⟨front, suffix⟩, -⟩ := exists_stripLeading span
  intro t mem
  refine h t ?_
  rw [← blanksBefore_append_content span, ← suffix, List.append_assoc, ← strip]
  exact List.mem_append_right front mem

namespace Part

/-- The part is read from state `c`, its text from state `m`, with these signs in its text. -/
structure Runs (p : Part) (c m c' : Conditional) (inner : List Sign) : Prop where
  leading : Flow false true c p.leading p.leading.directives m
  text : Passes Atom.sign? m p.text.toList inner c'
  solid : ∃ front a, p.text.toList = front ++ [a] ∧ Text.isBlank a = false
  trailing : Flow true false c' p.trailing [] c'
  indent : ∀ w, p.indent = some w → p.leading = [] ∧ ∀ a ∈ w.toList, isSpace a

/-- The gap behind the part once it is spaced. -/
def Leaves (p : Part) (c : Conditional) (g : Gap) : Prop :=
  if p.ends then g = .fresh else g.Behind c p.trailing

inductive Chain : Gap → Conditional → List Part → List Sign → Gap → Conditional → Prop
  | nil (g : Gap) (c : Conditional) : Chain g c [] [] g c
  | hollow {g g' : Gap} {c c' : Conditional} {ps : List Part} {ks : List Sign}
      (more : Chain .fresh c ps ks g' c') : Chain g c (Part.hollow :: ps) ks g' c'
  | cons {p : Part} {g g₁ g' : Gap} {c m c₁ c' : Conditional} {ps : List Part}
      {inner ks : List Sign} (first : p.Runs c m c₁ inner)
      (fits : p.spacing = .spaced ∨ g.Fits p.leading) (behind : p.Leaves c₁ g₁)
      (more : Chain g₁ c₁ ps ks g' c') :
      Chain g c (p :: ps) (p.leading.signs ++ inner ++ ks) g' c'

theorem Chain.append {g g₁ g' : Gap} {c c₁ c' : Conditional} {ps qs : List Part}
    {ks ks' : List Sign} (h : Chain g c ps ks g₁ c₁) (h' : Chain g₁ c₁ qs ks' g' c') :
    Chain g c (ps ++ qs) (ks ++ ks') g' c' := by
  induction h with
  | nil => exact h'
  | hollow _ ih => exact .hollow (ih h')
  | cons first fits behind _ ih =>
    rw [List.append_assoc]
    exact .cons first fits behind (ih h')

variable {p : Part} {c m c' : Conditional} {inner : List Sign} {ending : String} {g : Gap}

theorem indentation_flow {w : String} (spaces : ∀ a ∈ w.toList, isSpace a) (next fresh : Bool)
    (c : Conditional) :
    Flow next fresh c (if w.isEmpty then [] else [⟨.whitespace, w⟩]) [] c := by
  split
  · exact .nil _ _
  · exact .space rfl spaces (.nil _ _)

theorem setIndent_nil (w : String) :
    Span.setIndent w [] = if w.isEmpty then [] else [⟨.whitespace, w⟩] := by
  simp [Span.setIndent]

theorem setIndent_lineEnd (w ending : String) :
    Span.setIndent w [.lineEnd ending] =
      .lineEnd ending :: if w.isEmpty then [] else [⟨.whitespace, w⟩] := by
  rw [setIndent_lineEnd_cons, setIndent_nil]

theorem Runs.spaceLeading_spaced (h : p.Runs c m c' inner) (spaced : p.spacing = .spaced)
    (ending : String) : ∃ rest, p.spaceLeading ending = .lineEnd ending :: rest ∧
      Flow false true c rest p.leading.directives m := by
  have leading := h.leading
  cases indent : p.indent with
  | none => exact ⟨Span.stripLeading p.leading, by simp [spaceLeading, indent, spaced, oneLeading],
      leading.stripLeading⟩
  | some w =>
    obtain ⟨empty, spaces⟩ := h.indent w indent
    rw [empty] at leading ⊢
    obtain ⟨-, rfl⟩ := leading.blank (by simp)
    exact ⟨_, by simp [spaceLeading, indent, spaced, empty, oneLeading, Span.stripLeading,
      setIndent_lineEnd], indentation_flow spaces _ _ _⟩

theorem Runs.spaceLeading_flow (h : p.Runs c m c' inner) (terminator : IsTerminator ending)
    (fits : p.spacing = .spaced ∨ g.Fits p.leading) :
    ∃ fresh : Bool, (fresh → g = .fresh) ∧
      Flow false fresh c (p.spaceLeading ending) p.leading.directives m := by
  by_cases spaced : p.spacing = .spaced
  · obtain ⟨rest, leading, flow⟩ := h.spaceLeading_spaced spaced ending
    rw [leading]
    exact ⟨false, by simp, flow.lineEnd_cons terminator false⟩
  have leading := h.leading
  cases indent : p.indent with
  | some w =>
    obtain ⟨empty, spaces⟩ := h.indent w indent
    have apply : p.spacing.apply ending [] = [] := by
      cases kind : p.spacing with
      | spaced => exact absurd kind spaced
      | _ => rfl
    rw [empty] at leading
    obtain ⟨-, rfl⟩ := leading.blank (by simp)
    refine ⟨false, by simp, ?_⟩
    have leading : p.spaceLeading ending = Span.setIndent w [] := by
      rw [spaceLeading, indent, empty, apply]
    rw [leading, setIndent_nil, empty]
    exact indentation_flow spaces _ _ _
  | none =>
    have stays : Flow false true c (p.spacing.apply ending p.leading) p.leading.directives m ∧
        (p.leading.Inert → (p.spacing.apply ending p.leading).Inert) := by
      cases kind : p.spacing with
      | free => exact ⟨leading, id⟩
      | packed => exact ⟨leading.stripLeading, Span.Inert.stripLeading⟩
      | spaced => exact absurd kind spaced
    rw [spaceLeading, indent]
    obtain fresh | ⟨tight, inert⟩ := fits.resolve_left spaced
    · exact ⟨true, fun _ => fresh, stays.1⟩
    · exact ⟨false, by simp, stays.1.anywhere (stays.2 inert) false⟩

theorem Runs.spaceTrailing_flow (h : p.Runs c m c' inner) (terminator : IsTerminator ending) :
    Flow true false c' (p.spaceTrailing ending) [] c' := by
  rw [spaceTrailing, endWhen]
  split
  · exact (h.trailing.stripTrailing terminator).atEnd true
  · exact h.trailing

section
variable {α : Type} {note : Atom → Option α} {d n d' : Conditional} {before own : List α}

/-- What a reader notes of the leading trivia of a part and of its text. -/
structure Shows (note : Atom → Option α) (p : Part) (d n d' : Conditional)
    (before own : List α) : Prop where
  leading : Sees note d (p.leading.map .trivia) before n
  text : Passes note n p.text.toList own d'
  solid : p.text ≠ ""
  trailing : Sees note d' (p.trailing.map .trivia) [] d'

theorem solid_spaceLeading (p : Part) (ending : String) :
    (p.spaceLeading ending).solid = p.leading.solid := by
  have apply : (p.spacing.apply ending p.leading).solid = p.leading.solid := by
    cases p.spacing <;> simp [Spacing.apply]
  rw [spaceLeading]
  split
  · exact apply
  · rw [solid_setIndent, apply]

theorem solid_spaceTrailing (p : Part) (ending : String) :
    (p.spaceTrailing ending).solid = p.trailing.solid := by
  rw [spaceTrailing, endWhen]
  split <;> simp

theorem Shows.reach (h : p.Shows note d n d' before own) (runs : p.Runs c m c' inner)
    (legible : Legible c d (Span.text (p.spaceLeading ending)).toList)
    (terminator : IsTerminator ending) (fits : p.spacing = .spaced ∨ g.Fits p.leading)
    (starts : g = .fresh → q = .start) (y : List Char) :
    Reach note ⟨q, d⟩ ((Span.text (p.spaceLeading ending)).toList ++ (p.text.toList ++ y))
      (before ++ own) ⟨.inside, d'⟩ y := by
  obtain ⟨fresh, atStart, flow⟩ := runs.spaceLeading_flow terminator fits
  obtain ⟨q', front, -⟩ := flow.reach (h.leading.of_solid (p.solid_spaceLeading ending)) legible
    (fun yes => starts (atStart yes)) (y := p.text.toList ++ y) (by simp)
  exact front.trans (h.text q' y)

theorem Shows.reach_trailing (h : p.Shows note d n d' before own) (runs : p.Runs c m c' inner)
    (legible : Legible c' d' (Span.text (p.spaceTrailing ending)).toList)
    (terminator : IsTerminator ending) (leaves : p.Leaves c' g) {y : List Char}
    (ends : g = .loose → AtBreak y) :
    ∃ q, (g = .fresh → q = .start) ∧
      Reach note ⟨.inside, d'⟩ ((Span.text (p.spaceTrailing ending)).toList ++ y) [] ⟨q, d'⟩ y := by
  have sees := h.trailing.of_solid (p.solid_spaceTrailing ending)
  have fromFlow : Flow false false c' (p.spaceTrailing ending) [] c' →
      (g = .fresh → (p.spaceTrailing ending).endsLine) →
      ∃ q, (g = .fresh → q = .start) ∧
        Reach note ⟨.inside, d'⟩ ((Span.text (p.spaceTrailing ending)).toList ++ y) [] ⟨q, d'⟩
          y := by
    intro flow ended
    obtain ⟨q, reach, -, line⟩ := flow.reach sees legible (p := .inside) (by simp) (y := y)
      (by simp)
    exact ⟨q, fun fresh => line (ended fresh), reach⟩
  unfold Leaves at leaves
  split at leaves
  · rename_i yes
    refine fromFlow ?_ fun _ => ?_
    · rw [Part.spaceTrailing, endWhen, if_pos yes]
      exact runs.trailing.stripTrailing terminator
    · rw [Part.spaceTrailing, endWhen, if_pos yes]
      exact endsLine_stripTrailing ..
  · rename_i no
    have same : p.spaceTrailing ending = p.trailing := by
      rw [Part.spaceTrailing, endWhen, if_neg no]
    rw [same] at fromFlow sees legible ⊢
    cases g with
    | fresh => exact fromFlow (leaves.1.of_endsLine (.inr leaves.2)) fun _ => leaves.2
    | tight => exact fromFlow leaves (by simp)
    | loose =>
      obtain ⟨q, reach, -⟩ := leaves.reach sees legible (p := .inside) (by simp) (y := y)
        fun _ => ends rfl
      exact ⟨q, by simp, reach⟩

def frame (p : Part) : Span × String × Span :=
  (p.leading, p.text, p.trailing)

inductive ShowsAll (note : Atom → Option α) : Conditional → List Part → List α → Conditional → Prop
  | nil (d : Conditional) : ShowsAll note d [] [] d
  | hollow {p : Part} {d d' : Conditional} {ps : List Part} {ns : List α}
      (empty : p.frame = ([], "", [])) (more : ShowsAll note d ps ns d') :
      ShowsAll note d (p :: ps) ns d'
  | cons {p : Part} {d n d₁ d' : Conditional} {ps : List Part} {before own ns : List α}
      (first : p.Shows note d n d₁ before own) (more : ShowsAll note d₁ ps ns d') :
      ShowsAll note d (p :: ps) (before ++ own ++ ns) d'

end

theorem print_space (ending : String) (p : Part) :
    (p.space ending).print.toList = (Span.text (p.spaceLeading ending)).toList ++
      (p.text.toList ++ (Span.text (p.spaceTrailing ending)).toList) := by
  simp [print, space]

theorem print_space_hollow (ending : String) : (Part.hollow.space ending).print = ending := by
  simp [print, space, hollow, spaceLeading, spaceTrailing, endWhen, Span.stripTrailing,
    Trivia.lineEnd, Span.text]

end Part

theorem Finishes.of_lineEnd {α : Type} {note : Atom → Option α} {ending : String}
    (terminator : IsTerminator ending) {ns : List α} (h : Finishes note ⟨q, c⟩ ending.toList ns) :
    ns = [] ∧ c.branches = [] := by
  obtain ⟨as, reads, rfl⟩ := h
  obtain ⟨bs, steps, none⟩ : Reach note _ _ [] _ _ := Reach.lineEnd terminator q c []
  rw [List.append_nil] at steps
  obtain ⟨rest, rfl, done⟩ := reads.of_steps steps
  cases done with
  | done closed => exact ⟨by rw [List.append_nil, none], closed⟩

namespace Part.Chain

variable {g g' : Gap} {c c' c'' : Conditional} {ps : List Part} {ks : List Sign}
  {ks' : List DirectiveKind} {tail : Span} {ending : String}

def spacedText (ending : String) (tail : Span) (ps : List Part) : List Char :=
  (Part.printAll (ps.map (Part.space ending))).toList ++ (Span.text tail).toList

theorem spacedText_nil (ending : String) (tail : Span) :
    spacedText ending tail [] = (Span.text tail).toList := rfl

theorem spacedText_cons (ending : String) (tail : Span) (p : Part) (ps : List Part) :
    spacedText ending tail (p :: ps) = (Span.text (p.spaceLeading ending)).toList ++
      (p.text.toList ++ ((Span.text (p.spaceTrailing ending)).toList ++
        spacedText ending tail ps)) := by
  simp only [spacedText, List.map_cons, printAll, String.toList_append, print_space,
    List.append_assoc]

theorem spacedText_hollow (ending : String) (tail : Span) (ps : List Part) :
    spacedText ending tail (Part.hollow :: ps) = ending.toList ++ spacedText ending tail ps := by
  simp only [spacedText, List.map_cons, printAll, String.toList_append, print_space_hollow,
    List.append_assoc]

theorem break_of_loose (h : Chain .loose c ps ks g' c') (terminator : IsTerminator ending)
    (fits : g'.Fits tail ∨ tail = []) : spacedText ending tail ps = [] ∨
      ∃ b, (spacedText ending tail ps).head? = some b ∧ isLineBreak b := by
  obtain ⟨b, more, text, breaks⟩ := terminator.exists_cons
  have first : isLineBreak b := breaks b (by simp)
  cases h with
  | nil =>
    obtain rfl := fits.resolve_left (Gap.not_fits_loose tail)
    exact .inl rfl
  | hollow more => exact .inr ⟨b, by simp [spacedText_hollow, text], first⟩
  | cons runs enters =>
    obtain ⟨rest, leading, -⟩ :=
      runs.spaceLeading_spaced (enters.resolve_right (Gap.not_fits_loose _)) ending
    refine .inr ⟨b, ?_, first⟩
    simp [spacedText_cons, leading, Span.text_cons, Trivia.lineEnd, text]

theorem active_of_blank (h : Chain g c ps ks g' c') (flow : Flow true true c' tail ks' c'')
    (live : c''.isActive) (blank : ∀ a ∈ spacedText ending tail ps, Text.isBlank a) :
    c.isActive := by
  induction h with
  | nil =>
    obtain ⟨-, rfl⟩ := flow.blank (flow.isBlank_of_text blank live)
    exact live
  | hollow more ih =>
    rw [spacedText_hollow, List.forall_mem_append] at blank
    exact ih flow blank.2
  | cons first =>
    obtain ⟨front, a, text, solid⟩ := first.solid
    rw [blank a (by simp [spacedText_cons, text])] at solid
    cases solid

section
variable {α : Type} {note : Atom → Option α} {d d' d'' : Conditional} {ns ns' : List α}

/-- A tidied text is read to its end, and so it is without the blanks at its end. -/
theorem reads (h : Chain g c ps ks g' c') (shows : ShowsAll note d ps ns d') (byKind : ByKind note)
    (legible : Legible c d (spacedText ending tail ps)) (terminator : IsTerminator ending)
    (flow : Flow true true c' tail ks' c'') (sees : Sees note d' (tail.map .trivia) ns' d'')
    (fits : g'.Fits tail ∨ tail = []) (live : c''.isActive) (closed : d''.branches = [])
    (starts : g = .fresh → q = .start) :
    Finishes note ⟨q, d⟩ (Text.trimEnd (spacedText ending tail ps) ++ ending.toList)
      (ns ++ ns') := by
  induction h generalizing q d ns with
  | nil g c =>
    cases shows
    rw [List.nil_append, spacedText_nil]
    have ends : ∀ {fresh : Bool}, Flow true fresh c tail ks' c'' → (fresh → q = .start) → _ :=
      fun flow starts => flow.finishes sees byKind legible terminator live closed starts
    obtain (fresh | ⟨-, inert⟩) | rfl := fits
    · exact ends flow fun _ => starts fresh
    · exact ends (flow.anywhere inert false) (by simp)
    · exact ends (flow.anywhere (by simp [Inert]) false) (by simp)
  | @hollow g g' c c' ps ks more ih =>
    cases shows with
    | cons first => exact absurd rfl first.solid
    | hollow _ shows =>
      rw [spacedText_hollow] at legible ⊢
      have rest := ih shows (legible.mono (by simp +contextual)) flow fits (q := .start)
        fun _ => rfl
      refine .trimEnd_append (fun blank => ?_) fun _ =>
        (Reach.lineEnd terminator q d _).finishes rest
      rw [Text.trimEnd_of_blank blank, List.nil_append] at rest
      obtain ⟨none, unopened⟩ := rest.of_lineEnd terminator
      rw [Text.trimEnd_of_blank terminator.isBlank, none]
      exact .lineEnd terminator unopened q
  | @cons p g g₁ g' c m c₁ c' ps inner ks runs enters behind more ih =>
    obtain ⟨front, a, text, solid⟩ := runs.solid
    cases shows with
    | hollow empty =>
      have none : p.text = "" := congrArg (·.2.1) empty
      simp [none] at text
    | @cons _ _ n d₁ _ _ before own ns first later =>
      have cut : ∀ leading y, Text.trimEnd (leading ++ (p.text.toList ++ y)) =
          leading ++ (p.text.toList ++ Text.trimEnd y) := by
        intro leading y
        have := Text.trimEnd_append_cons (leading ++ front) solid y
        simpa [text] using this
      rw [spacedText_cons] at legible
      have step : Legible c₁ d₁ (spacedText ending tail ps) ∧
          Legible c₁ d₁ (Span.text (p.spaceTrailing ending)).toList := by
        have states : d = c → d₁ = c₁ := by
          rintro rfl
          obtain rfl : n = m := first.leading.unique runs.leading.sees
          exact first.text.unique runs.text
        have behind : Legible c₁ d₁ _ := legible.imp_left states
        exact ⟨behind.mono (by simp +contextual), behind.mono (by simp +contextual)⟩
      have reach := first.reach runs (legible.mono (by simp +contextual)) terminator enters starts
      rw [spacedText_cons, List.append_assoc (before ++ own), cut, List.append_assoc,
        List.append_assoc]
      refine (reach _).finishes (.trimEnd_append (fun blank => ?_) fun _ => ?_)
      · have rest := ih later step.1 flow fits (q := .start) fun _ => rfl
        rw [Text.trimEnd_of_blank blank, List.nil_append] at rest
        obtain ⟨none, unopened⟩ := rest.of_lineEnd terminator
        rw [none]
        exact (runs.spaceTrailing_flow terminator).finishes (p := .inside)
          (first.trailing.of_solid (p.solid_spaceTrailing ending)) byKind step.2 terminator
          (more.active_of_blank flow live blank) unopened (by simp)
      · obtain ⟨q', starts', trailing⟩ := first.reach_trailing runs step.2 terminator behind
          (y := Text.trimEnd (spacedText ending tail ps) ++ ending.toList) (by
            rintro rfl
            exact atBreak_trimEnd (more.break_of_loose terminator fits) terminator)
        exact trailing.finishes (ih later step.1 flow fits starts')

end

theorem shows (h : Chain g c ps ks g' c') : ShowsAll Atom.sign? c ps ks c' := by
  induction h with
  | nil => exact .nil _
  | hollow _ ih => exact .hollow rfl ih
  | cons runs _ _ _ ih =>
    refine .cons ⟨runs.leading.sees, runs.text, ?_, runs.trailing.sees⟩ ih
    obtain ⟨front, a, text, -⟩ := runs.solid
    intro empty
    simp [empty] at text

end Part.Chain

end CSharpTidy
