import CSharpTidy.Proofs.LiteralEnds
import CSharpTidy.Proofs.TracedTokens

/- Positions as a function of the whole text. A line ends behind a line feed, and behind a carriage
   return that no line feed follows; line and column of an offset count such ends. The cursor always
   stands where its position says, so the position of a token, and of a construct left open, is the
   one of the offset at which it begins. -/
namespace CSharpTidy

/-- Whether a line terminator ends at an offset. -/
def endsLineAt (source : List Char) : Nat → Bool
  | 0 => false
  | k + 1 => source[k]? == some '\n' || (source[k]? == some '\r' && source[k + 1]? != some '\n')

def terminatorEnds (source : List Char) (k : Nat) : List Nat :=
  (List.range (k + 1)).filter (endsLineAt source)

/-- Lines are counted by the terminators before the offset, columns from the end of the last of
them. -/
def Position.atOffset (source : List Char) (k : Nat) : Position :=
  ⟨1 + (terminatorEnds source k).length, 1 + (k - (terminatorEnds source k).getLastD 0)⟩

theorem terminatorEnds_succ (source : List Char) (k : Nat) : terminatorEnds source (k + 1) =
    terminatorEnds source k ++ if endsLineAt source (k + 1) then [k + 1] else [] := by
  rw [terminatorEnds, List.range_succ, List.filter_append, ← terminatorEnds]
  by_cases ends : endsLineAt source (k + 1) <;> simp [ends]

theorem terminatorEnds_getLastD_le (source : List Char) (k : Nat) :
    (terminatorEnds source k).getLastD 0 ≤ k := by
  cases last : (terminatorEnds source k).getLast? with
  | none => simp [List.getLastD_eq_getLast?, last]
  | some n =>
    have mem := List.mem_of_getLast? last
    rw [terminatorEnds, List.mem_filter, List.mem_range] at mem
    simp only [List.getLastD_eq_getLast?, last, Option.getD_some]
    omega

namespace Position

theorem atOffset_zero (source : List Char) : atOffset source 0 = start := rfl

theorem atOffset_step (passed : List Char) (c : Char) (rest : List Char) :
    (atOffset (passed ++ c :: rest) passed.length).step c rest.head? =
      atOffset (passed ++ c :: rest) (passed.length + 1) := by
  have next : (passed ++ c :: rest)[passed.length + 1]? = rest.head? := by
    rw [List.getElem?_append_right (by omega), List.head?_eq_getElem?]
    simp
  have ends : endsLineAt (passed ++ c :: rest) (passed.length + 1) =
      (c == '\n' || (c == '\r' && rest.head? != some '\n')) := by
    simp [endsLineAt, next]
  have last := terminatorEnds_getLastD_le (passed ++ c :: rest) passed.length
  rw [atOffset, atOffset, terminatorEnds_succ, ends, step]
  split
  · simp
    omega
  · simp only [List.append_nil, mk.injEq, true_and]
    omega

theorem advance_atOffset (passed text rest : List Char) :
    (atOffset (passed ++ (text ++ rest)) passed.length).advance text rest =
      atOffset (passed ++ (text ++ rest)) (passed.length + text.length) := by
  induction text generalizing passed with
  | nil => rfl
  | cons c text ih =>
    have next : text.head?.or rest.head? = (text ++ rest).head? := List.head?_append.symm
    have later := ih (passed ++ [c])
    rw [List.append_assoc, List.singleton_append, List.length_append, List.length_singleton]
      at later
    rw [advance, next, List.cons_append, atOffset_step, later, List.length_cons]
    congr 1
    omega

end Position

open Literal

variable {c c' : Cursor}

namespace Cursor

variable {rest : List Char} {span : Span}

section Placed

variable {source : List Char}

structure Placed (source : List Char) (c : Cursor) : Prop where
  rest : c.rest <:+ source
  position : c.position = .atOffset source (source.length - c.rest.length)

variable {text : List Char} {side : Side}

theorem Placed.advance (h : c.Placed source) (split : text ++ rest = c.rest) :
    c.position.advance text rest = .atOffset source (source.length - rest.length) := by
  obtain ⟨⟨passed, whole⟩, position⟩ := h
  rw [← split] at whole position
  have before : source.length - (text ++ rest).length = passed.length := by
    rw [← whole, List.length_append]
    omega
  have behind : source.length - rest.length = passed.length + text.length := by
    rw [← whole, List.length_append, List.length_append]
    omega
  rw [position, before, behind, ← whole]
  exact Position.advance_atOffset passed text rest

theorem Placed.move (h : c.Placed source) (split : text ++ rest = c.rest) :
    (c.move text rest).Placed source where
  rest := (List.suffix_append text rest).trans (split ▸ h.rest)
  position := h.advance split

theorem Placed.terminator (h : c.Placed source) : c.terminator.2.Placed source := by
  unfold Cursor.terminator
  split
  · exact h
  · rename_i b rest ahead
    split
    · obtain ⟨suffix, position⟩ := h.move ((splitBreak_append (b :: rest)).trans ahead.symm)
      exact ⟨suffix, position⟩
    · exact h

theorem Placed.inlinePiece {t : Trivia} (h : c.Placed source)
    (found : c.inlinePiece = .ok (some (t, c'))) : c'.Placed source := by
  unfold Cursor.inlinePiece at found
  split at found
  · cases found
  · rename_i a rest ahead
    split at found
    · cases found
      refine h.move ?_
      rw [List.cons_append, List.takeWhile_append_dropWhile, ahead]
    · split at found
      · cases found
      · cases found
      · rename_i comment
        cases found
        obtain ⟨suffix, position⟩ := h.move ((Piece.comment?_append comment).trans ahead.symm)
        exact ⟨suffix, position⟩

theorem Placed.deadBranch (h : c.Placed source) : c.deadBranch.2.Placed source := by
  obtain ⟨suffix, position⟩ := h.terminator.move
    (textBefore_append (Piece.afterDisabled_suffix c.terminator.2.rest))
  exact ⟨suffix, position⟩

theorem Placed.directive (h : c.Placed source) (found : c.directive = .ok (span, c')) :
    c'.Placed source := by
  obtain ⟨suffix, position⟩ := h.move (Literal.line_append_afterLine c.rest)
  simp only [Cursor.directive] at found
  split at found
  · cases found
  · split at found
    · cases found
      exact ⟨suffix, position⟩
    · cases found
      exact Placed.deadBranch ⟨suffix, position⟩

theorem Placed.leadingPiece (h : c.Placed source) (found : c.leadingPiece = .ok (some (span, c'))) :
    c'.Placed source := by
  unfold Cursor.leadingPiece at found
  split at found
  · cases found
  · split at found
    · have behind := h.terminator
      rwa [Option.some.inj (Except.ok.inj found)] at behind
    · split at found
      · split at found
        · cases found
        · rename_i directive
          cases found
          exact h.directive directive
      · split at found
        · cases found
        · cases found
        · rename_i piece
          cases found
          exact h.inlinePiece piece

theorem Placed.lexeme {a : Char} {l : Lexeme} (h : c.Placed source) (ahead : c.rest = a :: rest)
    (found : c.lexeme a rest = .ok (l, c')) : c'.Placed source := by
  unfold Cursor.lexeme at found
  split at found
  · cases found
  · rename_i piece
    cases found
    obtain ⟨suffix, position⟩ := h.move ((Piece.lexeme_append piece).trans ahead.symm)
    exact ⟨suffix, position⟩

theorem Step.placed {side' : Side} {es : List Element} (h : Step side c es side' c')
    (placed : c.Placed source) : c'.Placed source := by
  cases h with
  | piece found => exact placed.leadingPiece found
  | lexeme _ ahead found => exact placed.lexeme ahead found
  | inline found => exact placed.inlinePiece found
  | lineEnd => exact placed.terminator

theorem Reached.placed {symbols : List String} (h : Reached source symbols side c) :
    c.Placed source := by
  induction h with
  | start => exact ⟨List.suffix_rfl, by rw [ofText, Nat.sub_self, Position.atOffset_zero]⟩
  | step _ next ih => exact next.placed ih

end Placed

section Reached

variable {source : List Char} {symbols : List String}

theorem Reached.leading (h : Reached source symbols .leading c)
    (found : c.leading = .ok (span, c')) :
    Reached source symbols .leading c' := by
  fun_induction Cursor.leading c generalizing span c' with
  | case1 => cases found
  | case2 =>
    cases found
    exact h
  | case3 => cases found
  | case4 c span c₁ piece more c₂ rest ih =>
    cases found
    exact ih (h.step (.piece piece)) rest

theorem Reached.trailing (h : Reached source symbols .trailing c)
    (found : c.trailing = .ok (span, c')) : Reached source symbols .leading c' := by
  fun_induction Cursor.trailing c generalizing span c' with
  | case1 => cases found
  | case2 c stopped =>
    have behind := h.step (.lineEnd stopped)
    rwa [Except.ok.inj found] at behind
  | case3 => cases found
  | case4 c t c₁ piece more c₂ rest ih =>
    cases found
    exact ih (h.step (.inline piece)) rest

/-- Why the lexer stops at a cursor: a construct that begins at it, or in a hole of a string that
does, is left open, or a directive is refused. -/
inductive Stuck (c : Cursor) : ParseError → Prop
  | unterminated {u : Unterminated} (blamed : Blamed c.rest u) : Stuck c (c.unterminated u)
  | directive {cause : DirectiveError} {p : Position} : Stuck c (.directive cause p)

theorem comment?_blamed {s : List Char} {u : Unterminated} (h : Piece.comment? s = .error u) :
    Blamed s u := by
  unfold Piece.comment? at h
  split at h
  · cases h
  · split at h
    · rename_i endless
      cases h
      exact ⟨.inl rfl, .of_afterBlockComment endless⟩
    · cases h
  · cases h

variable {e : ParseError}

theorem inlinePiece_stuck (h : c.inlinePiece = .error e) : c.Stuck e := by
  unfold inlinePiece at h
  split at h
  · cases h
  · rename_i a rest ahead
    split at h
    · cases h
    · split at h
      · rename_i comment
        cases h
        exact .unterminated (ahead ▸ comment?_blamed comment)
      · cases h
      · cases h

theorem leadingPiece_stuck (h : c.leadingPiece = .error e) : c.Stuck e := by
  unfold leadingPiece at h
  split at h
  · cases h
  · split at h
    · cases h
    · split at h
      · split at h
        · rename_i refused
          cases h
          simp only [directive] at refused
          split at refused
          · cases refused
            exact .directive
          · split at refused <;> cases refused
        · cases h
      · split at h
        · rename_i failed
          cases h
          exact inlinePiece_stuck failed
        · cases h
        · cases h

theorem lexeme_stuck {a : Char} (ahead : c.rest = a :: rest) (h : c.lexeme a rest = .error e) :
    c.Stuck e := by
  unfold lexeme at h
  split at h
  · rename_i u failed
    cases h
    unfold Piece.lexeme at failed
    split at failed
    · rename_i literal
      cases failed
      exact .unterminated (ahead ▸ after_error literal)
    · cases failed
    · cases failed
  · cases h

def Fails (source : List Char) (symbols : List String) (e : ParseError) : Prop :=
  ∃ side c, Reached source symbols side c ∧ c.Stuck e

theorem leading_fails (reached : Reached source symbols .leading c) (h : c.leading = .error e) :
    Fails source symbols e := by
  fun_induction Cursor.leading c with
  | case1 c e' failed =>
    cases h
    exact ⟨_, c, reached, leadingPiece_stuck failed⟩
  | case2 => cases h
  | case3 c span c₁ piece e' failed ih =>
    cases h
    exact ih (reached.step (.piece piece)) failed
  | case4 => cases h

theorem trailing_fails (reached : Reached source symbols .trailing c) (h : c.trailing = .error e) :
    Fails source symbols e := by
  fun_induction Cursor.trailing c with
  | case1 c e' failed =>
    cases h
    exact ⟨_, c, reached, inlinePiece_stuck failed⟩
  | case2 => cases h
  | case3 c t c₁ piece e' failed ih =>
    cases h
    exact ih (reached.step (.inline piece)) failed
  | case4 => cases h

theorem tokens_fails (reached : Reached source symbols .leading c) (h : c.tokens = .error e) :
    Fails source symbols e := by
  fun_induction Cursor.tokens c with
  | case1 c e' failed =>
    cases h
    exact leading_fails reached failed
  | case2 => cases h
  | case3 c leading c₁ lead ended p more opened =>
    cases h
    exact ⟨_, c₁, reached.leading lead, .directive⟩
  | case4 c leading c₁ lead a rest ahead e' failed =>
    cases h
    exact ⟨_, c₁, reached.leading lead, lexeme_stuck ahead failed⟩
  | case5 c leading c₁ lead a rest ahead l c₂ lexeme e' failed =>
    cases h
    exact trailing_fails
      ((reached.leading lead).step (.lexeme (leading_stopped lead) ahead lexeme)) failed
  | case6 c leading c₁ lead a rest ahead l c₂ lexeme trailing c₃ trailed e' failed ih =>
    cases h
    have behind := (reached.leading lead).step (.lexeme (leading_stopped lead) ahead lexeme)
    exact ih (behind.trailing trailed) failed
  | case7 => cases h

end Reached

end Cursor

namespace Token

def offset (t : Token) (before : List Token) : Nat :=
  (textAll before ++ Span.text t.leading).length

theorem textAll_append (a b : List Token) : textAll (a ++ b) = textAll a ++ textAll b := by
  induction a with
  | nil => simp [textAll]
  | cons t a ih => rw [List.cons_append, textAll, textAll, ih, String.append_assoc]

theorem offset_nil (t : Token) : t.offset [] = (Span.text t.leading).length := by
  rw [offset, textAll, String.empty_append]

theorem offset_cons (t u : Token) (before : List Token) :
    t.offset (u :: before) = u.fullText.length + t.offset before := by
  simp only [offset, textAll, String.length_append]
  omega

end Token

theorem TokenStream.prefix_drop {s : TokenStream} {before after : List Token} {t : Token}
    (split : s.tokens = before ++ t :: after) :
    t.text.toList <+: s.text.toList.drop (t.offset before) := by
  have text : s.text = (Token.textAll before ++ Span.text t.leading) ++ (t.text ++
      (Span.text t.trailing ++ (Token.textAll after ++ Span.text s.tail))) := by
    simp only [TokenStream.text, split, Token.textAll_append, Token.textAll, Token.fullText,
      String.append_assoc]
  rw [text, String.toList_append, Token.offset, ← String.length_toList, List.drop_left,
    String.toList_append]
  exact List.prefix_append _ _

namespace Cursor

theorem length_of_ahead {text : String} (h : text ++ c'.ahead = c.ahead) :
    text.length + c'.rest.length = c.rest.length := by
  have length := congrArg String.length h
  simpa [ahead] using length

variable {source : List Char}

theorem tokens_positions {symbols : List String} {s : TokenStream}
    (reached : Reached source symbols .leading c) (h : c.tokens = .ok s) :
    s.finish = .atOffset source source.length ∧
      ∀ before t after, s.tokens = before ++ t :: after →
        t.position = .atOffset source (source.length - c.rest.length + t.offset before) := by
  fun_induction Cursor.tokens c generalizing s with
  | case1 => cases h
  | case2 c leading c₁ lead ended =>
    cases h
    have position := (reached.leading lead).placed.position
    rw [ended] at position
    exact ⟨position, by simp⟩
  | case3 => cases h
  | case4 => cases h
  | case5 => cases h
  | case6 => cases h
  | case7 c leading c₁ lead a rest ahead l c₂ lexeme trailing c₃ trailed s' more ih =>
    cases h
    have behind := (reached.leading lead).step (.lexeme (leading_stopped lead) ahead lexeme)
    obtain ⟨finish, later⟩ := ih (behind.trailing trailed) more
    have fits := reached.placed.rest.length_le
    have front := length_of_ahead (leading_text lead)
    refine ⟨finish, ?_⟩
    intro before t after split
    cases before with
    | nil =>
      obtain ⟨rfl, -⟩ := List.cons.inj split
      have here : source.length - c₁.rest.length =
          source.length - c.rest.length + (Span.text leading).length := by omega
      rw [Token.offset_nil, (reached.leading lead).placed.position, here]
    | cons u before =>
      obtain ⟨rfl, others⟩ := List.cons.inj split
      have token := congrArg String.length (lexeme_text lexeme)
      rw [← ahead] at token
      have own : l.text.length + c₂.rest.length = c₁.rest.length := by
        simpa [Cursor.ahead] using token
      have back := length_of_ahead (trailing_text trailed)
      have first : (Token.fullText ⟨l, leading, trailing, c₁.position⟩).length =
          (Span.text leading).length + l.text.length + (Span.text trailing).length := by
        rw [Token.fullText, String.length_append, String.length_append]
      rw [later before t after others, Token.offset_cons, first]
      congr 1
      omega

theorem Placed.unterminated (h : c.Placed source) {u : Unterminated}
    (suffix : u.opened <:+ c.rest) :
 c.unterminated u =
      .unterminated u.what (.atOffset source (source.length - u.opened.length)) := by
  rw [Cursor.unterminated, h.advance (textBefore_append suffix)]

end Cursor

/-- Every token has the position of the offset at which it stands, and the end of the text has the
position of its length. An error about a construct left open has the position of an offset at which
such a construct begins, where the lexer reads code. -/
theorem tokenize_positions (source : List Char) (symbols : List String) :
    (∀ s, tokenize source symbols = .ok s →
      (∀ before t after, s.tokens = before ++ t :: after →
        t.text.toList <+: source.drop (t.offset before) ∧
          t.position = .atOffset source (t.offset before)) ∧
      s.finish = .atOffset source source.length) ∧
    ∀ what p, tokenize source symbols = .error (.unterminated what p) →
      ∃ k, k ≤ source.length ∧ p = .atOffset source k ∧ LeftOpen what (source.drop k) ∧
        ∃ side c, Cursor.Reached source symbols side c ∧ CodeIn c.rest (source.drop k) := by
  constructor
  · intro s found
    obtain ⟨finish, positions⟩ := Cursor.tokens_positions .start found
    have text := congrArg String.toList (tokenize_text found)
    rw [String.toList_ofList] at text
    refine ⟨?_, finish⟩
    intro before t after split
    have position := positions before t after split
    rw [Cursor.ofText, Nat.sub_self, Nat.zero_add] at position
    exact ⟨text ▸ TokenStream.prefix_drop split, position⟩
  · intro what p failed
    obtain ⟨side, c, reached, stuck⟩ := Cursor.tokens_fails .start failed
    generalize same : ParseError.unterminated what p = e at stuck
    cases stuck with
    | directive => cases same
    | @unterminated u blamed =>
      have suffix := blamed.code.suffix.trans reached.placed.rest
      rw [reached.placed.unterminated blamed.code.suffix] at same
      cases same
      have opened : source.drop (source.length - u.opened.length) = u.opened :=
        (List.suffix_iff_eq_drop.mp suffix).symm
      refine ⟨_, Nat.sub_le _ _, rfl, ?_⟩
      rw [opened]
      exact ⟨blamed.endless, side, c, reached, blamed.code⟩

/-- Behind `\r\n`, a lone `\r` and a line feed inside of a literal, the word `b` stands on the
fourth line. Of the two strings that are open at the end of `$"{b "`, the error names the inner. -/
theorem tokenize_positions_mixed :
    let source := "a\r\n\r@\"\n\"b".toList
    let before : List Token := [⟨⟨.word, "a"⟩, [], [⟨.endOfLine, "\r\n"⟩], ⟨1, 1⟩⟩,
      ⟨⟨.literal, "@\"\n\""⟩, [⟨.endOfLine, "\r"⟩], [], ⟨3, 1⟩⟩]
    let b : Token := ⟨⟨.word, "b"⟩, [], [], ⟨4, 2⟩⟩
    let broken := "a\r$\"\x7bb \"".toList
    (tokenize source [] = .ok ⟨before ++ [b], [], ⟨4, 3⟩⟩ ∧
      b.position = .atOffset source (b.offset before)) ∧
    tokenize broken [] = .error (.unterminated .string ⟨2, 6⟩) ∧
      ∃ k, (⟨2, 6⟩ : Position) = .atOffset broken k ∧ LeftOpen .string (broken.drop k) := by
  intro source before b broken
  have found : tokenize source [] = .ok ⟨before ++ [b], [], ⟨4, 3⟩⟩ := by decide +kernel
  have failed : tokenize broken [] = .error (.unterminated .string ⟨2, 6⟩) := by decide +kernel
  obtain ⟨positions, -⟩ := (tokenize_positions source []).1 _ found
  obtain ⟨k, -, position, endless, -⟩ := (tokenize_positions broken []).2 _ _ failed
  exact ⟨⟨found, (positions before b [] rfl).2⟩, failed, k, position, endless⟩

end CSharpTidy
