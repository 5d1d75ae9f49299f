import CSharpTidy.Proofs.DirectiveWords
import CSharpTidy.Proofs.SolidEnds

/- The end of a text. Blanks at the end are cut off and one line end is put there, be it behind a
   token or in the middle of a comment or a directive line; what is read stays the same. -/
namespace CSharpTidy

variable {s blanks : List Char} {c : Char}

section
variable {α : Type} {note : Atom → Option α} {ns ns' : List α}

/-- The text is read to its end, with these notes. -/
def Finishes (note : Atom → Option α) (r : Reader) (s : List Char) (ns : List α) : Prop :=
  ∃ as, Reads r s as ∧ as.filterMap note = ns

variable {r : Reader}

theorem Reach.finishes {r' : Reader} {s' : List Char} (h : Reach note r s ns r' s')
    (more : Finishes note r' s' ns') : Finishes note r s (ns ++ ns') := by
  obtain ⟨as, steps, rfl⟩ := h
  obtain ⟨bs, reads, rfl⟩ := more
  exact ⟨as ++ bs, steps.reads reads, List.filterMap_append ..⟩

theorem Finishes.lineEnd {ending : String} (terminator : IsTerminator ending) {c : Conditional}
    (closed : c.branches = []) (p : Place) : Finishes note ⟨p, c⟩ ending.toList [] := by
  have reach : Reach note _ _ [] _ _ := Reach.lineEnd terminator p c []
  rw [List.append_nil] at reach
  exact reach.finishes ⟨[], .done closed, rfl⟩

/-- Where only blanks are behind a piece, the text is cut inside of it, else behind it. -/
theorem Finishes.trimEnd_append {t ending : List Char}
    (last : (∀ a ∈ t, Text.isBlank a) → Finishes note r (Text.trimEnd s ++ ending) ns)
    (goesOn : (∃ a ∈ t, Text.isBlank a = false) →
      Finishes note r (s ++ (Text.trimEnd t ++ ending)) ns) :
    Finishes note r (Text.trimEnd (s ++ t) ++ ending) ns := by
  by_cases blank : ∀ a ∈ t, Text.isBlank a
  · rw [Text.trimEnd_append_of_blank _ blank]
    exact last blank
  · have solid : ∃ a ∈ t, Text.isBlank a = false := by simpa using blank
    rw [Text.trimEnd_append_of_solid _ solid, List.append_assoc]
    exact goesOn solid

end

theorem Conditional.isActive_of_closed {c : Conditional} (h : c.branches = []) : c.isActive := by
  simp [isActive, h]

namespace Text

theorem trimEnd_of_blank (h : ∀ c ∈ s, isBlank c) : trimEnd s = [] := by
  have := trimEnd_append_of_blank [] h
  rwa [List.nil_append] at this

theorem mem_of_mem_trimEnd (h : c ∈ trimEnd s) : c ∈ s :=
  (List.rdropWhile_prefix isBlank s).subset h

theorem exists_trimEnd_append (s : List Char) :
    ∃ blanks, s = trimEnd s ++ blanks ∧ ∀ c ∈ blanks, isBlank c := by
  obtain ⟨blanks, whole⟩ := List.rdropWhile_prefix isBlank s
  rw [← trimEnd_eq] at whole
  refine ⟨blanks, whole.symm, blank_of_trimEnd_append (s := trimEnd s) ?_⟩
  rw [whole, trimEnd_trimEnd]

theorem trimEnd_head? (h : ∃ c ∈ s, isBlank c = false) : (trimEnd s).head? = s.head? := by
  cases s with
  | nil => rfl
  | cons a s =>
    cases solid : isBlank a with
    | false =>
      have := trimEnd_append_cons [] solid s
      rw [List.nil_append, List.nil_append] at this
      rw [this]
      rfl
    | true =>
      have later : ∃ c ∈ s, isBlank c = false := by
        obtain ⟨c, mem, solid'⟩ := h
        refine ⟨c, (List.mem_cons.mp mem).resolve_left ?_, solid'⟩
        rintro rfl
        rw [solid] at solid'
        cases solid'
      have := trimEnd_append_of_solid [a] later
      rw [List.singleton_append, List.singleton_append] at this
      rw [this]
      rfl

theorem trim_append_of_blank (s : List Char) (h : ∀ c ∈ blanks, isBlank c) :
    trim (s ++ blanks) = trim s := by
  rw [trim, trim, trimStart, List.dropWhile_append]
  split
  · rename_i empty
    rw [trimStart, List.isEmpty_iff.mp empty, List.dropWhile_eq_nil_iff.mpr h]
  · exact trimEnd_append_of_blank _ h

end Text

theorem atBreak_trimEnd {ending : String} (h : s = [] ∨ ∃ b, s.head? = some b ∧ isLineBreak b)
    (terminator : IsTerminator ending) : AtBreak (Text.trimEnd s ++ ending.toList) := by
  obtain ⟨b, more, text, breaks⟩ := terminator.exists_cons
  by_cases blank : ∀ a ∈ s, Text.isBlank a
  · rw [Text.trimEnd_of_blank blank, List.nil_append, text]
    intro a head
    obtain rfl : b = a := by simpa using head
    exact breaks b (by simp)
  · simp only [not_forall, Bool.not_eq_true, exists_prop] at blank
    obtain rfl | ⟨b, head, breaks⟩ := h
    · simp at blank
    · intro a front
      rw [List.head?_append, Text.trimEnd_head? blank, head] at front
      cases front
      exact breaks

namespace DirectiveLine

theorem isLower_of_isBlank (h : Text.isBlank c) : c.isLower = false := by
  by_contra lower
  have bounds : (decide ('a'.val ≤ c.val) && decide (c.val ≤ 'z'.val)) = true :=
    (Bool.not_eq_false _).mp lower
  have range : 97 ≤ c.toNat ∧ c.toNat ≤ 122 := by
    simpa [UInt32.le_iff_toNat_le, ← Char.toNat_val] using bounds
  have between : ¬ c.toNat < 0x20 ∧ ¬ c.toNat ≤ 0x20 ∧ c.toNat < 0x85 := by omega
  have low : ¬ c.toNat < 0x9 ∧ ¬ c.toNat ≤ 0xd := by omega
  simp [Text.isBlank, Text.blankRanges, Text.inRanges, between, low] at h

theorem takeWhile_append_blank (h : ∀ c ∈ blanks, Text.isBlank c) :
    (s ++ blanks).takeWhile Char.isLower = s.takeWhile Char.isLower ∧
      (s ++ blanks).dropWhile Char.isLower = s.dropWhile Char.isLower ++ blanks := by
  induction s with
  | nil =>
    cases blanks with
    | nil => exact ⟨rfl, rfl⟩
    | cons b blanks =>
      have := isLower_of_isBlank (h b (by simp))
      simp [this]
  | cons a s ih =>
    cases lower : a.isLower with
    | true => simpa [lower] using ih
    | false => simp [lower]

theorem split_append_blank (line : List Char) (h : ∀ c ∈ blanks, Text.isBlank c) :
    split (line ++ blanks) = (split line).map fun p => (p.1, p.2 ++ blanks) := by
  cases line with
  | nil =>
    cases blanks with
    | nil => rfl
    | cons b blanks =>
      have hash : b ≠ '#' := by
        rintro rfl
        exact absurd (h '#' (by simp)) (by decide)
      simp [split, hash]
  | cons a rest =>
    by_cases hash : a = '#'
    · subst hash
      rw [List.cons_append, split, split, List.dropWhile_append]
      cases body : rest.dropWhile fun c => c == ' ' || c == '\t' with
      | nil =>
        have none := (takeWhile_append_blank (s := []) fun c mem =>
          h c ((List.dropWhile_suffix fun c => c == ' ' || c == '\t').subset mem)).1
        rw [List.nil_append, List.takeWhile_nil] at none
        simp [none]
      | cons b more =>
        simp only [List.isEmpty_cons, Bool.false_eq_true, if_false, takeWhile_append_blank h]
        cases (b :: more).takeWhile Char.isLower <;> rfl
    · simp [split, hash]

theorem beforeComment_isPrefix (s : List Char) : beforeComment s <+: s := by
  fun_induction beforeComment s with
  | case1 rest => exact List.nil_prefix
  | case2 c rest _ ih => exact List.cons_prefix_cons.mpr ⟨rfl, ih⟩
  | case3 => exact List.nil_prefix

theorem beforeComment_cons (h : c = '/' → s.head? ≠ some '/') :
    beforeComment (c :: s) = c :: beforeComment s := by
  rw [beforeComment]
  intro rest slash next
  exact h slash (by rw [next]; rfl)

theorem beforeComment_append_blank (s : List Char) (h : ∀ c ∈ blanks, Text.isBlank c) :
    ∃ blanks', (∀ c ∈ blanks', Text.isBlank c) ∧
      beforeComment (s ++ blanks) = beforeComment s ++ blanks' := by
  fun_induction beforeComment s with
  | case1 rest => exact ⟨[], by simp, by simp [beforeComment]⟩
  | case2 c rest goesOn ih =>
    obtain ⟨blanks', blank, same⟩ := ih
    refine ⟨blanks', blank, ?_⟩
    rw [List.cons_append, beforeComment_cons, same, List.cons_append]
    rintro rfl head
    cases rest with
    | nil =>
      obtain ⟨more, rfl⟩ := List.head?_eq_some_iff.mp head
      exact absurd (h '/' (by simp)) (by decide)
    | cons b rest =>
      obtain rfl : b = '/' := by simpa using head
      exact goesOn rest rfl rfl
  | case3 =>
    exact ⟨beforeComment blanks, fun c mem => h c ((beforeComment_isPrefix blanks).subset mem), rfl⟩

theorem kind_trimEnd (line : List Char) : kind (Text.trimEnd line) = kind line := by
  obtain ⟨blanks, whole, blank⟩ := Text.exists_trimEnd_append line
  conv => rhs; rw [whole]
  simp only [kind, kind?, keyword?, split_append_blank _ blank, Option.map_map, Function.comp_def]

theorem argument_trimEnd (line : List Char) : argument (Text.trimEnd line) = argument line := by
  obtain ⟨blanks, whole, blank⟩ := Text.exists_trimEnd_append line
  conv => rhs; rw [whole]
  rw [argument, argument, split_append_blank _ blank]
  cases split (Text.trimEnd line) with
  | none => rfl
  | some p =>
    obtain ⟨blanks', blank', same⟩ := beforeComment_append_blank p.2 blank
    simp only [Option.map_some, same, Text.trim_append_of_blank _ blank']

end DirectiveLine

theorem Conditional.apply_trimEnd (c : Conditional) (kind : DirectiveKind) (line : List Char) :
    c.apply kind (Text.trimEnd line) = c.apply kind line := by
  simp only [apply, update, DirectiveLine.argument_trimEnd]

namespace Trivia

variable {t : Trivia}

theorem IsRemark.exists_slash (h : t.IsRemark) : ∃ more, t.text.toList = '/' :: more := by
  have found := h.found [] fun _ => atBreak_nil
  rw [List.append_nil] at found
  unfold Piece.comment? at found
  split at found
  · exact ⟨_, ‹_›⟩
  · exact ⟨_, ‹_›⟩
  · cases found

theorem IsRemark.trimEnd (h : t.IsRemark) :
    ∃ kind, IsRemark ⟨kind, String.ofList (Text.trimEnd t.text.toList)⟩ := by
  have found := h.found [] fun _ => atBreak_nil
  have solid : Text.isBlank '/' = false := by decide
  rw [List.append_nil] at found
  generalize whole : t.text.toList = s at found
  unfold Piece.comment? at found
  split at found
  · rename_i more
    have line : more.takeWhile (fun c => !isLineBreak c) = more := by simp_all
    have unbroken : ∀ a ∈ Text.trimEnd more, isLineBreak a = false := fun a mem =>
      Literal.line_unbroken more a (line.symm ▸ Text.mem_of_mem_trimEnd mem)
    have trimmed := Text.trimEnd_append_cons ['/'] solid more
    rw [List.singleton_append, List.singleton_append] at trimmed
    rw [trimmed]
    have ends : ∀ b, ([] : List Char).head? = some b → isLineBreak b := by simp
    obtain ⟨taken, left⟩ := Literal.takeWhile_line unbroken ends
    rw [List.append_nil] at taken left
    refine ⟨Piece.lineCommentKind ('/' :: '/' :: Text.trimEnd more),
      (@isRemark_of_found _ [] ?_).1⟩
    simp [Piece.comment?, taken, left]
  · rename_i more
    split at found
    · cases found
    · rename_i rest ended
      obtain ⟨-, -, rfl⟩ : .blockComment = t.kind ∧ _ ∧ rest = [] := by simpa using found
      obtain ⟨front, rfl⟩ := Literal.afterBlockComment_closes ended
      have nothing : Text.trimEnd [] = [] := rfl
      have trimmed := Text.trimEnd_append_cons ('/' :: '*' :: (front ++ ['*'])) solid []
      simp only [List.cons_append, List.append_assoc, List.nil_append, nothing] at trimmed
      refine ⟨t.kind, ?_⟩
      rw [trimmed, ← whole, String.ofList_toList]
      exact h
  · cases found

theorem IsDirective.trimEnd {k : DirectiveKind} (h : t.IsDirective k) :
    IsDirective ⟨t.kind, String.ofList (Text.trimEnd t.text.toList)⟩ k := by
  obtain ⟨body, hash⟩ := h.hash
  refine ⟨h.kind, ?_, ⟨Text.trimEnd body, ?_⟩, fun a mem => ?_⟩
  · rw [String.toList_ofList, DirectiveLine.kind_trimEnd, h.line]
  · rw [String.toList_ofList, hash]
    exact Text.trimEnd_append_cons [] (by decide) body
  · rw [String.toList_ofList] at mem
    exact h.unbroken a (Text.mem_of_mem_trimEnd mem)

section
variable {α : Type} {note : Atom → Option α} {t : Trivia} {d d' : Conditional} {ns : List α}

theorem IsRemark.seen_trimEnd (h : t.IsRemark) {kind : TriviaKind}
    (cut : IsRemark ⟨kind, String.ofList (Text.trimEnd t.text.toList)⟩)
    (seen : t.Seen note d ns d') :
    Trivia.Seen note ⟨kind, String.ofList (Text.trimEnd t.text.toList)⟩ d ns d' := by
  obtain ⟨even, rest⟩ := (seen_of_isComment h.isComment).mp seen
  refine (seen_of_isComment cut.isComment).mpr ⟨fun inactive => ?_, rest⟩
  obtain ⟨blanks, whole, blank⟩ := Text.exists_trimEnd_append t.text.toList
  have solid := Piece.comment?_endsSolid (h.found [] fun _ => atBreak_nil)
  have lines := even inactive
  rw [whole] at solid
  rw [isEven, whole] at lines
  rw [isEven, String.toList_ofList]
  exact hashLines_left lines (solid.inline_of_void fun a mem => isVoid_of_isBlank (blank a mem))

theorem IsDirective.seen_trimEnd {k : DirectiveKind} (h : t.IsDirective k) (byKind : ByKind note)
    (seen : t.Seen note d ns d') :
    Trivia.Seen note ⟨t.kind, String.ofList (Text.trimEnd t.text.toList)⟩ d ns d' := by
  obtain ⟨applied, noted⟩ := (seen_of_directive h.kind).mp seen
  have noted' := byKind t ⟨t.kind, String.ofList (Text.trimEnd t.text.toList)⟩ rfl
  refine (seen_of_directive h.trimEnd.kind).mpr ⟨?_, noted' ▸ noted⟩
  rwa [String.toList_ofList, Conditional.apply_trimEnd]

end

end Trivia

namespace Span.Flow

variable {next fresh : Bool} {c c' : Conditional} {span : Span} {ks : List DirectiveKind}

theorem isBlank_of_text (h : Flow next fresh c span ks c')
    (blank : ∀ a ∈ (Span.text span).toList, Text.isBlank a) (live : c'.isActive) :
    ∀ t ∈ span, t.isBlank := by
  induction h with
  | nil => simp
  | space kind spaces more ih | lineEnd kind breaks more ih =>
    rw [text_cons, String.toList_append, List.forall_mem_append] at blank
    exact List.forall_mem_cons.mpr ⟨by simp [Trivia.isBlank, kind], ih blank.2 live⟩
  | comment active remark =>
    obtain ⟨more, slash⟩ := remark.exists_slash
    rw [text_cons, String.toList_append, slash] at blank
    exact absurd (blank '/' (by simp)) (by decide)
  | directive indent line =>
    obtain ⟨body, hash⟩ := line.hash
    rw [text_append, text_cons, String.toList_append, String.toList_append, hash] at blank
    exact absurd (blank '#' (by simp)) (by decide)
  | disabled indent starts inactive dead more ih =>
    -- dead code at the end would stay dead
    rw [text_append, text_cons, String.toList_append, String.toList_append, List.forall_mem_append,
      List.forall_mem_append] at blank
    obtain ⟨-, rfl⟩ := more.blank (ih blank.2.2 live)
    rw [inactive] at live
    cases live

variable {ending : String}

theorem atBreak_behind (h : Flow true fresh c span ks c') (breaks : Breaks true span)
    (terminator : IsTerminator ending) :
    AtBreak (Text.trimEnd (Span.text span).toList ++ ending.toList) := by
  refine atBreak_trimEnd ?_ terminator
  cases text : (Span.text span).toList with
  | nil => exact .inl rfl
  | cons b more =>
    exact .inr ⟨b, rfl, h.atBreak breaks (y := []) (fun _ => atBreak_nil) b (by simp [text])⟩

section
variable {α : Type} {note : Atom → Option α} {d d' : Conditional} {ns : List α}

theorem finishes_of_blank (h : Flow next fresh c span ks c')
    (sees : Sees note d (span.map .trivia) ns d') (terminator : IsTerminator ending)
    (live : c'.isActive) (closed : d'.branches = [])
    (blank : ∀ a ∈ (Span.text span).toList, Text.isBlank a) (p : Place) :
    Finishes note ⟨p, d⟩ ending.toList ns := by
  obtain ⟨rfl, rfl⟩ := sees.of_blank (h.isBlank_of_text blank live)
  exact .lineEnd terminator closed p

theorem finishes (h : Flow true fresh c span ks c') (sees : Sees note d (span.map .trivia) ns d')
    (byKind : ByKind note) (legible : Legible c d (Span.text span).toList)
    (terminator : IsTerminator ending) (live : c'.isActive) (closed : d'.branches = []) {p : Place}
    (starts : fresh → p = .start) :
    Finishes note ⟨p, d⟩ (Text.trimEnd (Span.text span).toList ++ ending.toList) ns := by
  have atEnd : AtBreak ending.toList := by
    simpa [Text.trimEnd] using atBreak_trimEnd (.inl rfl) terminator
  induction h generalizing p d ns with
  | nil =>
    cases sees
    rw [Span.text_nil]
    exact .lineEnd terminator closed p
  | @space fresh c c' t rest ks kind spaces more ih =>
    cases sees with
    | cons first later =>
      obtain ⟨rfl, rfl⟩ := (Trivia.seen_of_isBlank (by simp [Trivia.isBlank, kind])).mp first
      rw [text_cons, String.toList_append]
      refine .trimEnd_append (fun blank => ?_) fun _ => ?_
      · exact (Reach.spaces (fun a mem => spaces a (Text.mem_of_mem_trimEnd mem)) p _ _).finishes
          (more.finishes_of_blank later terminator live closed blank _)
      · exact (Reach.spaces spaces p _ _).finishes
          (ih later (legible_tail legible) live (by simp))
  | @lineEnd fresh c c' t rest ks kind breaks more ih =>
    cases sees with
    | cons first later =>
      obtain ⟨rfl, rfl⟩ := (Trivia.seen_of_isBlank (by simp [Trivia.isBlank, kind])).mp first
      rw [text_cons, String.toList_append]
      refine .trimEnd_append (fun blank => ?_) fun _ => ?_
      · rw [Text.trimEnd_of_blank breaks.isBlank]
        exact more.finishes_of_blank later terminator live closed blank _
      · exact (Reach.lineEnd breaks p _ _).finishes
          (ih later (legible_tail legible) live (by simp))
  | @comment fresh c c' t rest ks active remark ends more ih =>
    cases sees with
    | @cons _ d₁ _ _ _ _ _ first later =>
      have same : d₁ = d := ((Trivia.seen_of_isComment remark.isComment).mp first).2.2
      rw [text_cons, String.toList_append]
      refine .trimEnd_append (fun blank => ?_) fun _ => ?_
      · obtain ⟨kind, cut⟩ := remark.trimEnd
        have reach := Reach.comment cut (remark.seen_trimEnd cut first) p fun _ => atEnd
        rw [String.toList_ofList] at reach
        exact reach.finishes (more.finishes_of_blank later terminator live closed blank _)
      · exact (Reach.comment remark first p fun runsOn =>
          more.atBreak_behind (ends runsOn) terminator).finishes
            (ih later (same ▸ legible_tail legible) live (by simp))
  | @directive c c₁ c' white t kind rest ks indent line ends counts applied more ih =>
    obtain ⟨d₁, ns₁, ns₂, rfl, first, later⟩ := sees_indented indent sees
    obtain rfl := starts rfl
    have counts' := fun dead => (counts dead).1
    rw [text_append, text_cons, String.toList_append, String.toList_append, ← List.append_assoc]
    refine .trimEnd_append (fun blank => ?_) fun _ => ?_
    · obtain ⟨body, hash⟩ := line.hash
      have reach := reach_directive indent line.trimEnd (legible_left legible) counts'
        (line.seen_trimEnd byKind first) atEnd
      rw [String.toList_ofList] at reach
      rw [Text.trimEnd_append_of_solid _ ⟨'#', by simp [hash], by decide⟩, List.append_assoc]
      exact reach.finishes (more.finishes_of_blank later terminator live closed blank _)
    · rw [List.append_assoc]
      exact (reach_directive indent line (legible_left legible) counts' first
        (more.atBreak_behind ends terminator)).finishes
          (ih later (legible_directive legible line applied first) live (by simp))
  | @disabled c c' white t rest ks indent starts' inactive dead more ih =>
    obtain ⟨d₁, ns₁, ns₂, rfl, first, later⟩ := sees_indented indent sees
    obtain rfl := starts rfl
    rw [text_append, text_cons, String.toList_append, String.toList_append, ← List.append_assoc]
    refine .trimEnd_append (fun blank => ?_) fun _ => ?_
    · -- dead code at the end would stay dead
      obtain ⟨-, rfl⟩ := more.blank (more.isBlank_of_text blank live)
      rw [inactive] at live
      cases live
    · rw [List.append_assoc]
      exact (reach_dead indent starts' dead first _).finishes
        (ih later (legible_dead legible dead inactive first) live (by simp))

end

end Span.Flow

end CSharpTidy
