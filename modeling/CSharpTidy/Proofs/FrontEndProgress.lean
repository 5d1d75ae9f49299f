import CSharpTidy.Proofs.CheckedParse
import CSharpTidy.Proofs.LiteralEnds

/- What is read of a text gets less with every step. A scanner that passes something leaves fewer
   characters than it found, and a declaration ends behind the token it starts with and not behind
   the end of the file. -/
namespace CSharpTidy

open Checked

namespace Indexed

open Outline

variable {s : TokenStream} {start pos head stop : Nat}

/-- A declaration that starts at an index ends behind it, and not behind the end of the file. -/
def Advances (s : TokenStream) (start : Nat) (run : Check (Decl × Nat)) : Prop :=
  ∀ d next, run = .ok (d, next) → start < next ∧ next ≤ s.tokens.length

/-- A block ends at the brace that closes it or, without braces, at the end of the file. -/
def Closes (s : TokenStream) (braced : Bool) (pos : Nat) (run : Check (Block Decl × Nat)) : Prop :=
  ∀ block next, run = .ok (block, next) →
    pos ≤ next ∧ if braced then next < s.tokens.length else next = s.tokens.length

variable {scan : Except Fault (List Lexeme)} {run : Check Nat}

theorem Ends.bounds (h : Ends s start run scan) (ran : run = .ok stop) :
    start ≤ stop ∧ stop < s.tokens.length := by
  subst ran
  cases scan with
  | error f => cases h
  | ok rest =>
    obtain ⟨j, ran, order, inside, -⟩ := h
    cases ran
    exact ⟨order, inside⟩

theorem headerEnd_bounds (h : headerEnd s 0 start = .ok stop) :
    start ≤ stop ∧ stop < s.tokens.length := by
  have ends := headerEnd_ends s 0 start
  rw [h] at ends
  cases scan : Outline.headerEnd 0 (ahead s start) with
  | error f => rw [scan] at ends; cases ends
  | ok found =>
    rw [scan] at ends
    obtain ⟨j, t, ran, order, here, -⟩ := ends
    cases ran
    exact ⟨order, (List.getElem?_eq_some_iff.mp here).1⟩

theorem Advances.own (order : start ≤ stop) (inside : stop < s.tokens.length) (kind : DeclKind)
    (visibility : Visibility) (key : DeclKey) :
    Advances s start (do return (← declFrom s start stop kind visibility key, stop + 1)) := by
  intro d next h
  obtain ⟨own, -, h⟩ := ok_of_bind h
  cases h
  exact ⟨Nat.lt_succ_of_le order, inside⟩

theorem importDecl_advances (s : TokenStream) (start : Nat) :
    Advances s start (importDecl s start) := by
  intro d next h
  obtain ⟨stop, ended, h⟩ := ok_of_bind h
  obtain ⟨kind, -, h⟩ := ok_of_bind h
  obtain ⟨path, -, h⟩ := ok_of_bind h
  obtain ⟨order, inside⟩ := (findSemicolon_ends s start).bounds ended
  exact Advances.own order inside _ _ _ d next h

theorem globalAttribute_advances (s : TokenStream) (start : Nat) :
    Advances s start (globalAttribute s start) := by
  intro d next h
  obtain ⟨stop, ended, h⟩ := ok_of_bind h
  obtain ⟨order, inside⟩ := matching_bounds ended
  exact Advances.own order inside _ _ _ d next h

theorem plainMember_advances (scope : Scope) (visibility : Visibility) (order : start ≤ head) :
    Advances s start (plainMember s scope visibility start head) := by
  intro d next h
  obtain ⟨stop, ended, h⟩ := ok_of_bind h
  obtain ⟨own, -, h⟩ := ok_of_bind h
  obtain ⟨classified, -, h⟩ := ok_of_bind h
  obtain ⟨after, inside⟩ := (memberEnd_ends s 0 false head).bounds ended
  exact Advances.own (by omega) inside _ _ _ d next h

theorem wholeEnd_bounds (opened : head < s.tokens.length) (h : wholeEnd s head = .ok stop) :
    head ≤ stop ∧ stop < s.tokens.length := by
  rw [wholeEnd, cellIs_eq, ok_bind] at h
  split at h
  · obtain ⟨close, ended, h⟩ := ok_of_bind h
    obtain ⟨order, inside⟩ := matching_bounds ended
    rw [cellIs_eq, ok_bind, pure_eq] at h
    cases h
    split
    · rename_i semicolon
      exact ⟨by omega, lt_of_startsWith semicolon⟩
    · exact ⟨order, inside⟩
  · cases h
    exact ⟨Nat.le_refl _, opened⟩

theorem wholeType_advances (kind : DeclKind) (visibility : Visibility) (order : start ≤ head) :
    Advances s start (wholeType s kind visibility start head) := by
  intro d next h
  obtain ⟨opened, headed, h⟩ := ok_of_bind h
  obtain ⟨stop, ended, h⟩ := ok_of_bind h
  obtain ⟨key, -, h⟩ := ok_of_bind h
  obtain ⟨after, within⟩ := headerEnd_bounds headed
  obtain ⟨further, inside⟩ := wholeEnd_bounds within ended
  exact Advances.own (by omega) inside _ _ _ d next h

theorem Closes.step {braced : Bool} {run : Check (Decl × Nat)}
    {go : Decl × Nat → Check (Block Decl × Nat)}
    (rest : ∀ d next, pos < next → next ≤ s.tokens.length → Closes s braced next (go (d, next))) :
    Closes s braced pos (do
      let read ← run
      onwardTo s pos read.2 fun _ => go read) := by
  intro block last h
  obtain ⟨⟨d, next⟩, -, h⟩ := ok_of_bind h
  rw [onwardTo] at h
  split at h
  · rename_i further
    obtain ⟨order, ended⟩ := rest d next further.1 further.2 block last h
    exact ⟨Nat.le_trans (Nat.le_of_lt further.1) order, ended⟩
  · cases h

theorem blockBody_closes (scope : Scope) (block : Block Decl) (inside : pos ≤ s.tokens.length) :
    Closes s block.braced pos (blockBody s scope block pos) := by
  induction left : s.tokens.length - pos using Nat.strongRecOn generalizing block pos with
  | ind left ih =>
    have further (block : Block Decl) (next : Nat) (order : pos < next)
        (within : next ≤ s.tokens.length) :
        Closes s block.braced next (blockBody s scope block next) :=
      ih (s.tokens.length - next) (by omega) block within rfl
    rw [blockBody, cell_eq]
    cases here : s.tokens[pos]? with
    | none =>
      have ended := List.getElem?_eq_none_iff.mp here
      intro block' next h
      simp only at h
      split at h
      · cases h
      · rename_i unbraced
        cases h
        rw [if_neg unbraced]
        exact ⟨Nat.le_refl _, by omega⟩
    | some t =>
      simp only
      split
      · intro block' next h
        split at h
        · rename_i braced
          cases h
          rw [if_pos braced]
          exact ⟨Nat.le_refl _, (List.getElem?_eq_some_iff.mp here).1⟩
        · cases h
      · simp only [atImport_eq, atGlobalAttribute_eq, ok_bind]
        split
        · exact .step fun d next order within => further _ next order within
        split
        · exact .step fun d next order within => further _ next order within
        · exact .step fun d next order within => further _ next order within

theorem closeContainer_advances (decl : Decl) (block : Block Decl) (closes : pos < s.tokens.length) :
    Advances s pos (closeContainer s decl block pos) := by
  intro d next h
  obtain ⟨closed, last⟩ := closeContainer_eq closes decl block
  have size := closingSize_pos (ahead s (pos + 1))
  rw [closed] at h
  cases h
  exact ⟨by omega, last⟩

theorem container_advances (kind : ContainerKind) (visibility : Visibility) (order : start ≤ head) :
    Advances s start (container s kind visibility start head) := by
  intro d next h
  rw [container] at h
  obtain ⟨opened, headed, h⟩ := ok_of_bind h
  obtain ⟨key, -, h⟩ := ok_of_bind h
  obtain ⟨decl, -, h⟩ := ok_of_bind h
  obtain ⟨trailing, -, h⟩ := ok_of_bind h
  obtain ⟨after, inside⟩ := headerEnd_bounds headed
  rw [cellIs_eq, ok_bind, onwardTo, onwardTo, dif_pos ⟨by omega, inside⟩,
    dif_pos ⟨by omega, inside⟩] at h
  split at h
  · split at h
    · obtain ⟨⟨block, last⟩, body, h⟩ := ok_of_bind h
      obtain ⟨further, ended⟩ := blockBody_closes _ _ inside block last body
      cases h
      rw [if_neg Bool.false_ne_true] at ended
      exact ⟨by omega, by omega⟩
    · cases h
      exact ⟨by omega, inside⟩
  · obtain ⟨⟨block, last⟩, body, h⟩ := ok_of_bind h
    obtain ⟨further, ended⟩ := blockBody_closes _ _ inside block last body
    have := closeContainer_advances decl block ended d next h
    exact ⟨by omega, this.2⟩

theorem Reaches.order (h : Reaches s start run scan) (ran : run = .ok stop) : start ≤ stop := by
  subst ran
  cases scan with
  | error f => cases h
  | ok rest =>
    obtain ⟨j, ran, order, -⟩ := h
    cases ran
    exact order

theorem member_advances (s : TokenStream) (scope : Scope) (start : Nat) :
    Advances s start (member s scope start) := by
  intro d next h
  rw [member] at h
  obtain ⟨first, attributes, h⟩ := ok_of_bind h
  obtain ⟨head, modifiers, h⟩ := ok_of_bind h
  obtain ⟨words, -, h⟩ := ok_of_bind h
  have order : start ≤ head := by
    obtain ⟨reached, ran, after, -⟩ := skip_eq s Lexeme.isModifier first (Nat.le_refl _)
    cases ran.symm.trans modifiers
    exact Nat.le_trans ((afterAttributes_reaches s start).order attributes) after
  simp only [cellIs_eq, cellIsWord_eq, ok_bind] at h
  split at h
  · exact container_advances _ _ order d next h
  split at h
  · exact container_advances _ _ order d next h
  split at h
  · exact container_advances _ _ order d next h
  split at h
  · exact wholeType_advances _ _ order d next h
  split at h
  · exact wholeType_advances _ _ order d next h
  split at h
  · exact wholeType_advances _ _ order d next h
  · exact plainMember_advances _ _ order d next h

structure Progress (s : TokenStream) : Prop where
  importDecl : ∀ start, Advances s start (importDecl s start)
  globalAttribute : ∀ start, Advances s start (globalAttribute s start)
  member : ∀ scope start, Advances s start (member s scope start)
  container : ∀ kind visibility start head, start ≤ head →
    Advances s start (container s kind visibility start head)
  wholeType : ∀ kind visibility start head, start ≤ head →
    Advances s start (wholeType s kind visibility start head)
  blockBody : ∀ scope (block : Block Decl) pos, pos ≤ s.tokens.length →
    Closes s block.braced pos (blockBody s scope block pos)

theorem progress (s : TokenStream) : Progress s where
  importDecl := importDecl_advances s
  globalAttribute := globalAttribute_advances s
  member := member_advances s
  container kind visibility _ _ order := container_advances kind visibility order
  wholeType kind visibility _ _ order := wholeType_advances kind visibility order
  blockBody scope block _ inside := blockBody_closes scope block inside

theorem ofTokens_of_tokenize (text : List Char) (symbols : List String) :
    (ofExcept (tokenize text symbols) >>= ofTokens) =
      ofExcept (tokenize text symbols >>= SourceFile.ofTokens) := by
  cases tokenized : tokenize text symbols with
  | error e => rfl
  | ok s => exact ofTokens_eq (Cursor.tokens_regular tokenized)

end Indexed

namespace Literal

variable {stack stack' : List Frame} {s s' : List Char}

inductive Moves : Nat → List Frame → List Char → List Frame → List Char → Prop
  | none (stack : List Frame) (s : List Char) : Moves 0 stack s stack s
  | string {n : Nat} {style : Style} {opened s s₁ s' : List Char} {outer stack' : List Frame}
      {step : StringStep} (next : style.step s = some (step, s₁))
      (more : Moves n (step.frames style opened outer) s₁ stack' s') :
      Moves (n + 1) (.string style opened :: outer) s stack' s'
  | hole {n braces : Nat} {opened s s₁ s' : List Char} {outer stack' : List Frame}
      {step : HoleStep} (next : holeStep opened s = .ok (step, s₁))
      (more : Moves n (step.frames s braces opened outer) s₁ stack' s') :
      Moves (n + 1) (.hole braces opened :: outer) s stack' s'

/-- The scanner takes no step more: nothing is open, or what is open is never closed. -/
inductive Stops : List Frame → List Char → Except Unterminated (List Char) → Prop
  | done (s : List Char) : Stops [] s (.ok s)
  | string {style : Style} {opened s : List Char} {outer : List Frame}
      (ended : style.step s = none) :
      Stops (.string style opened :: outer) s (.error ⟨style.construct, opened⟩)
  | hole {braces : Nat} {opened s : List Char} {outer : List Frame} {e : Unterminated}
      (failed : holeStep opened s = .error e) : Stops (.hole braces opened :: outer) s (.error e)

theorem Moves.length {n : Nat} (h : Moves n stack s stack' s') : n + s'.length ≤ s.length := by
  induction h with
  | none => exact Nat.le_of_eq (Nat.zero_add _)
  | string next _ ih =>
    have := Style.step_length next
    omega
  | hole next _ ih =>
    have := holeStep_length next
    omega

theorem scan_stops (stack : List Frame) (s : List Char) :
    ∃ n stack' s', Moves n stack s stack' s' ∧ Stops stack' s' (scan stack s) := by
  fun_induction scan stack s with
  | case1 s => exact ⟨0, [], s, .none _ _, .done s⟩
  | case2 s style opened outer ended => exact ⟨0, _, s, .none _ _, .string ended⟩
  | case3 s style opened outer step s₁ next ih =>
    obtain ⟨n, stack', s', moves, stops⟩ := ih
    exact ⟨n + 1, stack', s', .string next moves, stops⟩
  | case4 s braces opened outer e failed => exact ⟨0, _, s, .none _ _, .hole failed⟩
  | case5 s braces opened outer step s₁ next ih =>
    obtain ⟨n, stack', s', moves, stops⟩ := ih
    exact ⟨n + 1, stack', s', .hole next moves, stops⟩

theorem Frame.Closes.length {frame : Frame} (h : frame.Closes s s') : s'.length < s.length := by
  induction h with
  | close step => exact Style.step_length step
  | text step _ ih => exact Nat.lt_trans ih (Style.step_length step)
  | hole step _ _ inner more =>
    exact Nat.lt_trans more (Nat.lt_trans inner (Style.step_length step))
  | leave step => exact holeStep_length step
  | pass step _ ih | openBrace step _ ih | closeBrace step _ ih =>
    exact Nat.lt_trans ih (holeStep_length step)
  | string step _ _ inner more =>
    exact Nat.lt_trans more (Nat.lt_trans inner (holeStep_length step))

structure Progress : Prop where
  opening : ∀ s o rest, opening s = some (o, rest) → rest.length < s.length
  stringStep : ∀ (style : Style) s step rest, style.step s = some (step, rest) →
    rest.length < s.length
  holeStep : ∀ opened s step rest, holeStep opened s = .ok (step, rest) → rest.length < s.length
  construct : ∀ frame s rest, scan [frame] s = .ok rest → rest.length < s.length
  moves : ∀ n stack s stack' s', Moves n stack s stack' s' → n + s'.length ≤ s.length
  stops : ∀ stack s, ∃ n stack' s', Moves n stack s stack' s' ∧ Stops stack' s' (scan stack s)
  character : ∀ s rest, afterCharacter s = some rest → rest.length < s.length
  literal : ∀ s rest, after s = .ok (some rest) → rest.length < s.length
  comment : ∀ s p, Piece.comment? s = .ok (some p) → p.rest.length < s.length

theorem progress : Progress where
  opening _ _ _ := opening_length
  stringStep _ _ _ _ := Style.step_length
  holeStep _ _ _ _ := holeStep_length
  construct _ _ _ h := (scan_eq_ok_iff.mp h).length
  moves _ _ _ _ _ := Moves.length
  stops := scan_stops
  character _ _ := afterCharacter_length
  literal _ _ := after_length
  comment _ _ := Piece.comment?_length

end Literal

theorem Piece.disabledLine_length (a : Char) (rest : List Char) :
    (splitBreak (Literal.afterLine (a :: rest))).2.length < (a :: rest).length := by
  have line := Literal.afterLine_length_le (a :: rest)
  cases ended : Literal.afterLine (a :: rest) with
  | nil => exact Nat.succ_pos _
  | cons b behind =>
    rw [ended] at line
    exact Nat.lt_of_lt_of_le (splitBreak_rest_length b behind) line

namespace Cursor

variable {c c₁ c₂ c₃ : Cursor} {before behind : Span} {a : Char} {rest : List Char} {l : Lexeme}

theorem token_length (lead : c.leading = .ok (before, c₁)) (more : c₁.rest = a :: rest)
    (found : c₁.lexeme a rest = .ok (l, c₂)) (trail : c₂.trailing = .ok (behind, c₃)) :
    c₃.rest.length < c.rest.length := by
  have first := leading_length_le lead
  have second := lexeme_length found
  have third := trailing_length_le trail
  rw [more] at first
  omega

theorem tokens_length_le {s : TokenStream} (h : c.tokens = .ok s) :
    s.tokens.length ≤ c.rest.length := by
  fun_induction Cursor.tokens c generalizing s with
  | case1 => cases h
  | case2 =>
    cases h
    exact Nat.zero_le _
  | case3 => cases h
  | case4 => cases h
  | case5 => cases h
  | case6 => cases h
  | case7 c before c₁ lead a rest ahead l c₂ found behind c₃ trail s' more ih =>
    cases h
    exact Nat.lt_of_le_of_lt (ih more) (token_length lead ahead found trail)

/-- What is passed of a text, be it a line of a dead branch, a piece of trivia, a lexeme or a token,
leaves fewer characters than there were. -/
structure Progress : Prop where
  disabledLine : ∀ a rest,
    (splitBreak (Literal.afterLine (a :: rest))).2.length < (a :: rest).length
  number : ∀ hex previous s, (Piece.splitNumber hex previous s).1.length +
    (Piece.splitNumber hex previous s).2.length = s.length
  plain : ∀ a rest, (Piece.plain a rest).rest.length < (a :: rest).length
  inline : ∀ (c c' : Cursor) t, c.inlinePiece = .ok (some (t, c')) →
    c'.rest.length < c.rest.length
  leading : ∀ (c c' : Cursor) span, c.leadingPiece = .ok (some (span, c')) →
    c'.rest.length < c.rest.length
  token : ∀ (c c₁ c₂ c₃ : Cursor) before a rest l behind, c.leading = .ok (before, c₁) →
    c₁.rest = a :: rest → c₁.lexeme a rest = .ok (l, c₂) → c₂.trailing = .ok (behind, c₃) →
    c₃.rest.length < c.rest.length
  tokens : ∀ (c : Cursor) s, c.tokens = .ok s → s.tokens.length ≤ c.rest.length

theorem progress : Progress where
  disabledLine := Piece.disabledLine_length
  number hex previous s := by rw [← List.length_append, Piece.splitNumber_append]
  plain := Piece.plain_length
  inline _ _ _ := inlinePiece_length
  leading _ _ _ := leadingPiece_length
  token _ _ _ _ _ _ _ _ _ := token_length
  tokens _ _ := tokens_length_le

end Cursor

/-- Every step through a text passes a character at least, and every declaration is read up to a
token behind its first one and within the file. No check that a loop gets on ever fails. -/
theorem front_end_progress (text : List Char) (symbols : List String) :
    Literal.Progress ∧ Cursor.Progress ∧ (∀ s, Indexed.Progress s) ∧
    (ofExcept (tokenize text symbols) >>= Indexed.ofTokens) =
      ofExcept (tokenize text symbols >>= SourceFile.ofTokens) :=
  ⟨Literal.progress, Cursor.progress, Indexed.progress,
    Indexed.ofTokens_of_tokenize text symbols⟩

/-- A string with a hole, in which another string stands. -/
theorem front_end_progress_nested :
    let s := "$\"\x7bf(\"a\")\x7d b\"c".toList
    Literal.after s = .ok (some ['c']) ∧ ['c'].length < s.length := by
  intro s
  have ended : Literal.after s = .ok (some ['c']) := by decide +kernel
  exact ⟨ended, (front_end_progress s []).1.literal s ['c'] ended⟩

end CSharpTidy
