import CSharpTidy.Proofs.LineLocality
import CSharpTidy.Proofs.RoundTrip
import CSharpTidy.Proofs.TrimmedText

/- Dead branches play no part in live code. Whole lines that end no branch may take the place of a
   dead branch, whatever they hold, and all else is read as before. -/
namespace CSharpTidy

/-- Whole lines, none of which opens, continues or closes a conditional branch. -/
inductive DeadLines : List Char → Prop
  | nil : DeadLines []
  | line {text rest : List Char} {ending : String} (unbroken : ∀ c ∈ text, isLineBreak c = false)
      (quiet : (DirectiveLine.kind (Text.trimStart text)).isConditional = false)
      (terminator : IsTerminator ending) (more : DeadLines rest) :
      DeadLines (text ++ (ending.toList ++ rest))

variable {d : List Char} {ending : String}

theorem splitBreak_terminator (terminator : IsTerminator ending) {s : List Char}
    (whole : ending = "\r" → s.head? ≠ some '\n') :
    splitBreak (ending.toList ++ s) = (ending.toList, s) := by
  rcases terminator with rfl | rfl | rfl
  · rfl
  · have alone := whole rfl
    cases s with
    | nil => rfl
    | cons a s =>
      have other : a ≠ '\n' := by simpa using alone
      simp [splitBreak, other]
  · rfl

namespace Piece

theorem afterDisabled_lineFeed (s : List Char) : afterDisabled ('\n' :: s) = afterDisabled s := by
  have breaks : isLineBreak '\n' := by decide
  rw [afterDisabled_eq, not_atConditional_of_break breaks, if_neg (by simp), Literal.afterLine,
    List.dropWhile_cons_of_neg (by simp [breaks])]
  rfl

theorem afterDisabled_line {text : List Char} (unbroken : ∀ c ∈ text, isLineBreak c = false)
    (quiet : (DirectiveLine.kind (Text.trimStart text)).isConditional = false)
    (terminator : IsTerminator ending) (s : List Char) :
    afterDisabled (text ++ (ending.toList ++ s)) = afterDisabled s := by
  have ends : ∀ b, (ending.toList ++ s).head? = some b → isLineBreak b := by
    intro b head
    obtain ⟨a, rest, text, breaks⟩ := terminator.exists_cons
    rw [text] at head
    cases head
    exact breaks b (by simp)
  obtain ⟨taken, left⟩ := Literal.takeWhile_line unbroken ends
  rw [afterDisabled_eq, atConditional_eq, taken, quiet, if_neg (by simp), left]
  by_cases whole : ending = "\r" → s.head? ≠ some '\n'
  · rw [splitBreak_terminator terminator whole]
  · -- the line feed behind a carriage return ends the same line
    simp only [Classical.not_imp, not_not] at whole
    obtain ⟨rfl, lineFeed⟩ := whole
    obtain ⟨more, rfl⟩ := List.head?_eq_some_iff.mp lineFeed
    rw [afterDisabled_lineFeed]
    rfl

theorem afterDisabled_lines {post : List Char} (lines : DeadLines d)
    (ends : post = [] ∨ atConditional post) : afterDisabled (d ++ post) = post := by
  induction lines with
  | nil =>
    rcases ends with rfl | conditional
    · rw [List.nil_append, afterDisabled]
    · rw [List.nil_append, afterDisabled_eq, if_pos conditional]
  | line unbroken quiet terminator more ih =>
    rw [List.append_assoc, List.append_assoc, afterDisabled_line unbroken quiet terminator, ih]

end Piece

namespace Cursor

variable {c c' : Cursor} {dead : String} {before after : List Element} {rest : List Char}
  {place side : Side} {span : Span} {t : Trivia}

theorem deadBranch_of_break (terminator : IsTerminator ending) {s : List Char}
    (ahead : c.rest = ending.toList ++ s) (whole : ending = "\r" → s.head? ≠ some '\n')
    {text post : List Char} (nonempty : text ≠ []) (split : s = text ++ post)
    (behind : Piece.afterDisabled s = post) :
    c.deadBranch.1 = [⟨.endOfLine, ending⟩, ⟨.disabled, String.ofList text⟩] ∧
      Near { c with lineStart := true } c.deadBranch.2 ∧ c.deadBranch.2.rest = post := by
  obtain ⟨b, rest, cut, breaks⟩ := terminator.exists_cons
  have front : c.rest = b :: (rest ++ s) := by rw [ahead, cut, List.cons_append]
  have line := terminator_of_break front (breaks b (by simp))
  rw [ahead, splitBreak_terminator terminator whole] at line
  have before : textBefore s post = text := by rw [split, textBefore_append_self]
  simp only [deadBranch, line, move, behind, before]
  refine ⟨?_, ⟨rfl, rfl, rfl⟩, trivial⟩
  rw [if_neg (by simpa using nonempty), String.ofList_toList]
  rfl

theorem exists_of_dead (line : ∀ b, c.rest.head? = some b → isLineBreak b)
    (h : ⟨.disabled, dead⟩ ∈ c.deadBranch.1) :
    ∃ ending s, IsTerminator ending ∧ c.rest = ending.toList ++ s ∧
      (ending = "\r" → s.head? ≠ some '\n') ∧ textBefore s (Piece.afterDisabled s) ≠ [] := by
  cases ahead : c.rest with
  | nil => simp [deadBranch, terminator, ahead, Piece.afterDisabled, textBefore] at h
  | cons b rest =>
    have breaks := line b (by simp [ahead])
    refine ⟨String.ofList (splitBreak (b :: rest)).1, (splitBreak (b :: rest)).2,
      splitBreak_isTerminator breaks rest, ?_, fun alone => ?_, fun none => ?_⟩
    · rw [String.toList_ofList, splitBreak_append]
    · refine splitBreak_whole ?_
      rw [← String.toList_ofList (l := (splitBreak (b :: rest)).1), alone]
      rfl
    · have ended := terminator_of_break ahead breaks
      simp [deadBranch, ended, move, ahead, none] at h

theorem not_dead_of_inline (h : c.inlinePiece = .ok (some (t, c'))) : t.kind ≠ .disabled := by
  unfold inlinePiece at h
  split at h
  · cases h
  · split at h
    · cases h
      simp
    · split at h
      · cases h
      · cases h
      · rename_i p found
        cases h
        have comment := Piece.comment?_isComment found ""
        intro dead
        simp only [Trivia.isComment] at comment dead
        simp [dead] at comment

theorem not_dead_of_terminator (mem : t ∈ c.terminator.1) : t.kind ≠ .disabled := by
  intro dead
  have ends := (c.terminator_lexed t mem).1
  simp [Trivia.isEndOfLine, dead] at ends

theorem directive_of_dead (h : c.leadingPiece = .ok (some (span, c')))
    (found : ⟨.disabled, dead⟩ ∈ span) :
    ∃ rest, c.rest = '#' :: rest ∧ c.lineStart = true ∧ c.directive = .ok (span, c') := by
  unfold leadingPiece at h
  split at h
  · cases h
  · rename_i a rest ahead
    split at h
    · have ended : c.terminator = (span, c') := Option.some.inj (Except.ok.inj h)
      exact absurd rfl (not_dead_of_terminator (c := c) (by rw [ended]; exact found))
    · split at h
      · rename_i hash
        simp only [Bool.and_eq_true, beq_iff_eq] at hash
        split at h
        · cases h
        · rename_i directed
          cases h
          exact ⟨rest, hash.1 ▸ ahead, hash.2, directed⟩
      · split at h
        · cases h
        · cases h
        · rename_i inline
          cases h
          obtain rfl := List.mem_singleton.mp found
          exact absurd rfl (not_dead_of_inline inline)

theorem leadingPiece_of_directive (ahead : c.rest = '#' :: rest) (lineStart : c.lineStart = true)
    (h : c.directive = .ok (span, c')) : c.leadingPiece = .ok (some (span, c')) := by
  have inline : isLineBreak '#' = false := by decide
  simp [leadingPiece, ahead, inline, lineStart, h]

/-- The line of a directive, its line break and the dead branch behind it. Other dead lines may
take the place of the dead branch. -/
theorem Directed.replace {line : List Char} {before after : Span}
    (h : Directed c line rest (before ++ ⟨.disabled, dead⟩ :: after) c')
    (ends : ∀ b, rest.head? = some b → isLineBreak b) (lines : DeadLines d) (nonempty : d ≠ [])
    (fresh : d.head? ≠ some '\n') :
    after = [] ∧ ∃ z t, isLineBreak z ∧ (Span.text before).toList = line ++ z :: t ∧
      ∀ e : Cursor, Near c e → ∃ e', Directed e line (z :: (t ++ (d ++ c'.rest)))
        (before ++ [⟨.disabled, String.ofList d⟩]) e' ∧ Near c' e' ∧ e'.rest = c'.rest := by
  generalize found : before ++ ⟨.disabled, dead⟩ :: after = span at h
  cases h with
  | live =>
    have mem : (⟨.disabled, dead⟩ : Trivia) ∈ [Trivia.directiveLine line] := by simp [← found]
    simp [Trivia.directiveLine] at mem
  | @dead conditional applied inactive =>
    have mem : (⟨.disabled, dead⟩ : Trivia) ∈
        (c.behindLine line rest conditional).deadBranch.1 := by
      have : (⟨.disabled, dead⟩ : Trivia) ∈ Trivia.directiveLine line ::
          (c.behindLine line rest conditional).deadBranch.1 := by simp [← found]
      simpa [Trivia.directiveLine] using this
    obtain ⟨ending, s, terminator, ahead, whole, full⟩ := exists_of_dead ends mem
    have split := (textBefore_append (Piece.afterDisabled_suffix s)).symm
    obtain ⟨shape, near, left⟩ := deadBranch_of_break terminator ahead whole full split rfl
    obtain ⟨z, t, cut, breaks⟩ := terminator.exists_cons
    rw [shape] at found
    have parts : before = [.directiveLine line, ⟨.endOfLine, ending⟩] ∧ after = [] := by
      rcases before with _ | ⟨a, _ | ⟨b, _ | ⟨c, before⟩⟩⟩ <;>
        simp [Trivia.directiveLine] at found ⊢
      exact ⟨⟨found.1, found.2.1⟩, found.2.2.2⟩
    obtain ⟨rfl, rfl⟩ := parts
    refine ⟨rfl, z, t, breaks z (by simp), by simp [Trivia.directiveLine, cut], fun e near' => ?_⟩
    have ahead' : (e.behindLine line (z :: (t ++ (d ++ Piece.afterDisabled s))) conditional).rest =
        ending.toList ++ (d ++ Piece.afterDisabled s) := by
      rw [cut]
      rfl
    have whole' : ending = "\r" → (d ++ Piece.afterDisabled s).head? ≠ some '\n' := by
      intro _
      rwa [List.head?_append_of_ne_nil _ nonempty]
    obtain ⟨shape', near'', left'⟩ := deadBranch_of_break terminator ahead' whole' nonempty rfl
      (Piece.afterDisabled_lines lines (Piece.afterDisabled_cases s))
    rw [left]
    have directed : Directed e line (z :: (t ++ (d ++ Piece.afterDisabled s))) _ _ :=
      .dead (near'.conditional ▸ applied) inactive
    have opened := (near'.behindLine line rest (z :: (t ++ (d ++ Piece.afterDisabled s)))
      conditional).opened
    rw [shape'] at directed
    exact ⟨_, directed, ⟨near''.lineStart.trans near.lineStart.symm,
      near''.conditional.trans near.conditional.symm,
      near''.opened.trans (opened.trans near.opened.symm)⟩, left'⟩

theorem leadingPiece_replace {before after : Span}
    (h : c.leadingPiece = .ok (some (before ++ ⟨.disabled, dead⟩ :: after, c')))
    (lines : DeadLines d) (nonempty : d ≠ []) (fresh : d.head? ≠ some '\n') :
    after = [] ∧ ∃ z u t, isLineBreak z ∧ (Span.text before).toList = u ++ z :: t ∧
      ∀ e : Cursor, Near c e → e.rest = u ++ z :: (t ++ (d ++ c'.rest)) →
        ∃ e', e.leadingPiece = .ok (some (before ++ [⟨.disabled, String.ofList d⟩], e')) ∧
          Near c' e' ∧ e'.rest = c'.rest := by
  have mem : (⟨.disabled, dead⟩ : Trivia) ∈ before ++ ⟨.disabled, dead⟩ :: after := by simp
  obtain ⟨rest, hash, lineStart, directed⟩ := directive_of_dead h mem
  have unbroken := Literal.line_unbroken c.rest
  have start : ∃ more, c.rest.takeWhile (fun a => !isLineBreak a) = '#' :: more := by
    rw [hash, List.takeWhile_cons_of_pos (by decide)]
    exact ⟨_, rfl⟩
  obtain ⟨last, z, t, breaks, text, replaced⟩ := (directive_eq_ok_iff.mp directed).replace
    (fun b head => by
      obtain ⟨more, front⟩ := List.head?_eq_some_iff.mp head
      exact Literal.afterLine_head front) lines nonempty fresh
  refine ⟨last, z, _, t, breaks, text, fun e near ahead => ?_⟩
  obtain ⟨e', found, more⟩ := replaced e near
  obtain ⟨taken, left⟩ := @Literal.takeWhile_line _ (z :: (t ++ (d ++ c'.rest))) unbroken
    (by simp [breaks])
  obtain ⟨front, line⟩ := start
  have hash' : e.rest = '#' :: (front ++ z :: (t ++ (d ++ c'.rest))) := by
    rw [ahead, line]
    rfl
  refine ⟨e', leadingPiece_of_directive hash' (near.lineStart.trans lineStart) ?_, more⟩
  rw [directive_eq_ok_iff, ahead, taken, left]
  exact found

theorem Step.replace {side' : Side}
    (h : Step side c (before ++ .trivia place ⟨.disabled, dead⟩ :: after) side' c')
    (lines : DeadLines d) (nonempty : d ≠ []) (fresh : d.head? ≠ some '\n') :
    after = [] ∧ ∃ z u t, isLineBreak z ∧ before.flatMap Element.text = u ++ z :: t ∧
      ∀ e : Cursor, Near c e → e.rest = u ++ z :: (t ++ (d ++ c'.rest)) →
        ∃ e', Step side e (before ++ [.trivia place ⟨.disabled, String.ofList d⟩]) side' e' ∧
          Near c' e' ∧ e'.rest = c'.rest := by
  generalize found : before ++ .trivia place ⟨.disabled, dead⟩ :: after = es at h
  have mem : Element.trivia place ⟨.disabled, dead⟩ ∈ es := by simp [← found]
  cases h with
  | @piece _ _ span piece =>
    obtain ⟨first, others, rfl, rfl, rest⟩ := List.map_eq_append_iff.mp found.symm
    obtain ⟨t, last, rfl, same, rfl⟩ := List.map_eq_cons_iff.mp rest
    cases same
    obtain ⟨none, z, u, t, breaks, text, replaced⟩ :=
      leadingPiece_replace piece lines nonempty fresh
    refine ⟨by simp [none], z, u, t, breaks, ?_, fun e near ahead => ?_⟩
    · rw [← text]
      exact Span.elements_text .leading first
    · obtain ⟨e', piece', more⟩ := replaced e near ahead
      have step := Step.piece piece'
      rw [Span.elements_append] at step
      exact ⟨e', step, more⟩
  | lexeme => simp at mem
  | inline piece =>
    simp only [Span.elements, List.map_cons, List.map_nil, List.mem_singleton] at mem
    cases mem
    exact absurd rfl (not_dead_of_inline piece)
  | lineEnd =>
    obtain ⟨t, ended, same⟩ := List.mem_map.mp mem
    cases same
    exact absurd rfl (not_dead_of_terminator ended)

/-- Up to the line break in front of the dead branch the runs differ in what is left to read; in
the piece that holds it, and behind that, in positions only. -/
theorem Run.replace (h : Run side c (before ++ .trivia place ⟨.disabled, dead⟩ :: after))
    (lines : DeadLines d) (nonempty : d ≠ []) (fresh : d.head? ≠ some '\n') :
    ∃ z u t, isLineBreak z ∧ before.flatMap Element.text = u ++ z :: t ∧
      ∀ e : Cursor, Near c e → e.rest = u ++ z :: (t ++ (d ++ after.flatMap Element.text)) →
        Run side e (before ++ .trivia place ⟨.disabled, String.ofList d⟩ :: after) := by
  generalize found : before ++ .trivia place ⟨.disabled, dead⟩ :: after = es at h
  induction h generalizing before with
  | done => simp at found
  | @step side side' c c' es fs first more ih =>
    rcases List.append_eq_append_iff.mp found.symm with ⟨gap, rfl, rfl⟩ | ⟨gap, rfl, rest⟩
    · -- the dead branch is in a later step
      obtain ⟨z, u, t, breaks, text, replaced⟩ := ih rfl
      have ahead := first.text
      have behind : c'.rest = u ++ z :: (t ++ (dead.toList ++ after.flatMap Element.text)) := by
        rw [more.text, List.flatMap_append, text]
        simp [Element.text]
      refine ⟨z, es.flatMap Element.text ++ u, t, breaks, by simp [text], fun e near start => ?_⟩
      have moves : Moves c.rest c'.rest e.rest
          (u ++ z :: (t ++ (d ++ after.flatMap Element.text))) :=
        .inr ⟨z, es.flatMap Element.text ++ u, u, _, _, breaks, by rw [ahead, behind]; simp, behind,
          start, rfl⟩
      obtain ⟨e', first', near', left⟩ := first.moves near moves
      rw [List.append_assoc]
      exact .step first' (replaced e' near' left)
    · cases gap with
      | nil =>
        -- it never comes first in a step
        obtain ⟨z, u, t, -, text, -⟩ := @ih [] rest
        simp at text
      | cons _ gap =>
        rw [List.cons_append] at rest
        obtain ⟨rfl, rfl⟩ := List.cons.inj rest
        obtain ⟨rfl, z, u, t, breaks, text, replaced⟩ := first.replace lines nonempty fresh
        refine ⟨z, u, t, breaks, text, fun e near start => ?_⟩
        rw [List.nil_append, ← more.text] at start
        obtain ⟨e', first', near', left⟩ := replaced e near start
        have run := Run.step first' (more.near near' left)
        rwa [List.append_assoc] at run

end Cursor

/-- Dead lines in the place of a dead branch change nothing else: the text is read as before, with
the same tokens and the same trivia around them. -/
theorem tokenize_replace_dead {source : List Char} {symbols : List String} {stream : TokenStream}
    (h : tokenize source symbols = .ok stream) {before after : List Element} {place : Side}
    {dead : String} (found : stream.elements = before ++ .trivia place ⟨.disabled, dead⟩ :: after)
    {d : List Char} (lines : DeadLines d) (nonempty : d ≠ []) (fresh : d.head? ≠ some '\n') :
    source = before.flatMap Element.text ++ dead.toList ++ after.flatMap Element.text ∧
      ∃ stream', tokenize (before.flatMap Element.text ++ d ++ after.flatMap Element.text) symbols =
          .ok stream' ∧
        stream'.elements = before ++ .trivia place ⟨.disabled, String.ofList d⟩ :: after := by
  have run := Cursor.run_of_tokens h
  rw [found] at run
  obtain ⟨z, u, t, -, text, replaced⟩ := run.replace lines nonempty fresh
  constructor
  · have whole : source = _ := run.text
    rw [whole]
    simp [Element.text]
  · refine Cursor.tokens_iff_run.mpr (replaced _ ⟨rfl, rfl, rfl⟩ ?_)
    rw [text]
    simp [Cursor.ofText]

/-- An unclosed string and an unclosed comment take the place of a statement. -/
theorem tokenize_replace_dead_unclosed :
    let before : List Element := [.trivia .leading ⟨.directive .ifTest, "#if A"⟩,
      .trivia .leading ⟨.endOfLine, "\n"⟩]
    let after : List Element := [.trivia .leading ⟨.directive .endIf, "#endif"⟩,
      .trivia .leading ⟨.endOfLine, "\n"⟩, .lexeme ⟨.word, "c"⟩]
    (∃ stream, tokenize "#if A\nx;\n#endif\nc".toList [] = .ok stream ∧
      stream.elements = before ++ .trivia .leading ⟨.disabled, "x;\n"⟩ :: after) ∧
    ∃ stream, tokenize "#if A\n\"#if\r/*\r\n#endif\nc".toList [] = .ok stream ∧
      stream.elements = before ++ .trivia .leading ⟨.disabled, "\"#if\r/*\r\n"⟩ :: after := by
  intro before after
  have lines : DeadLines "\"#if\r/*\r\n".toList :=
    @DeadLines.line "\"#if".toList _ "\r" (by simp [isLineBreak]) (by decide) (.inr (.inl rfl))
      (@DeadLines.line "/*".toList _ "\r\n" (by simp [isLineBreak]) (by decide) (.inr (.inr rfl))
        .nil)
  obtain ⟨stream, read, found⟩ : ∃ stream, tokenize "#if A\nx;\n#endif\nc".toList [] = .ok stream ∧
      stream.elements = before ++ .trivia .leading ⟨.disabled, "x;\n"⟩ :: after := by
    have known : (tokenize "#if A\nx;\n#endif\nc".toList []).toOption.map TokenStream.elements =
        some (before ++ .trivia .leading ⟨.disabled, "x;\n"⟩ :: after) := by
      decide +kernel
    obtain ⟨stream, some, elements⟩ := Option.map_eq_some_iff.mp known
    exact ⟨stream, eq_ok_of_toOption some, elements⟩
  exact ⟨⟨stream, read, found⟩,
    (tokenize_replace_dead read found lines (by decide) (by decide)).2⟩

end CSharpTidy
