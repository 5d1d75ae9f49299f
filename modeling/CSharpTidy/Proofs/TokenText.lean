import CSharpTidy.Token.Stream

/- Where the text goes. Every scanner leaves a suffix of its input, so what it took and what it
   left are the input again, and the tokens of a text with their trivia spell that text. -/
namespace CSharpTidy

variable {rest s : List Char} {c : Cursor}

theorem textBefore_append (h : rest <:+ s) : textBefore s rest ++ rest = s := by
  obtain ⟨front, rfl⟩ := h
  simp [textBefore]

theorem splitBreak_suffix (s : List Char) : (splitBreak s).2 <:+ s :=
  ⟨_, splitBreak_append s⟩

namespace Literal

theorem afterRun_suffix (c : Char) (s : List Char) : afterRun c s <:+ s :=
  List.dropWhile_suffix _

theorem afterLine_suffix (s : List Char) : afterLine s <:+ s :=
  List.dropWhile_suffix _

variable {o : Opening}

theorem stringOpening_suffix {dollars : Nat} {verbatim : Bool}
    (h : stringOpening dollars verbatim s = some (o, rest)) : rest <:+ s := by
  unfold stringOpening at h
  split at h
  · split at h
    · cases h
      exact afterRun_suffix _ _
    · cases h
      exact List.suffix_cons _ _
  · cases h

theorem opening_suffix (h : opening s = some (o, rest)) : rest <:+ s := by
  unfold opening at h
  split at h
  · cases h
    exact List.suffix_cons _ _
  · cases h
    exact (List.suffix_cons _ _).trans (List.suffix_cons _ _)
  · exact stringOpening_suffix h
  · simp only at h
    split at h
    · exact (stringOpening_suffix h).trans (List.dropWhile_suffix _)
    · cases h

theorem afterCharacter_suffix (h : afterCharacter s = some rest) : rest <:+ s := by
  fun_induction afterCharacter s with
  | case1 => cases h
  | case2 c rest' ih =>
    exact (ih h).trans ((List.suffix_cons _ _).trans (List.suffix_cons _ _))
  | case3 rest' =>
    cases h
    exact List.suffix_cons _ _
  | case4 => cases h
  | case5 c rest' _ _ _ ih => exact (ih h).trans (List.suffix_cons _ _)

theorem afterBlockComment_suffix (h : afterBlockComment s = some rest) : rest <:+ s := by
  fun_induction afterBlockComment s with
  | case1 => cases h
  | case2 rest' =>
    cases h
    exact (List.suffix_cons _ _).trans (List.suffix_cons _ _)
  | case3 c rest' _ ih => exact (ih h).trans (List.suffix_cons _ _)

theorem holeStep_suffix {opened : List Char} {step : HoleStep}
    (h : holeStep opened s = .ok (step, rest)) : rest <:+ s := by
  unfold holeStep at h
  split at h
  · rename_i started
    split at h
    · cases h
    · rename_i ended
      cases h
      exact (afterCharacter_suffix ended).trans (opening_suffix started)
  · rename_i started
    cases h
    exact opening_suffix started
  · split at h
    · cases h
    · cases h
      exact (afterLine_suffix _).trans ((List.suffix_cons _ _).trans (List.suffix_cons _ _))
    · split at h
      · cases h
      · rename_i ended
        cases h
        exact (afterBlockComment_suffix ended).trans
          ((List.suffix_cons _ _).trans (List.suffix_cons _ _))
    · cases h; exact List.suffix_cons _ _
    · cases h; exact List.suffix_cons _ _
    · cases h; exact List.suffix_cons _ _

theorem Style.step_suffix {style : Style} {step : StringStep}
    (h : style.step s = some (step, rest)) :
    rest <:+ s := by
  cases style with
  | quoted verbatim interpolated =>
    unfold Style.step quotedStep at h
    grind [List.suffix_cons, List.IsSuffix.trans]
  | raw quotes dollars =>
    unfold Style.step rawStep at h
    grind [List.suffix_cons, afterRun_suffix]

theorem scan_suffix {stack : List Frame} (h : scan stack s = .ok rest) : rest <:+ s := by
  fun_induction scan stack s <;>
    grind [List.IsSuffix.trans, → Style.step_suffix, → holeStep_suffix]

theorem after_suffix (h : after s = .ok (some rest)) : rest <:+ s := by
  unfold after at h
  split at h
  · cases h
  · rename_i started
    split at h
    · cases h
    · rename_i ended
      cases h
      exact (afterCharacter_suffix ended).trans (opening_suffix started)
  · rename_i started
    split at h
    · cases h
    · rename_i scanned
      cases h
      exact (scan_suffix scanned).trans (opening_suffix started)

end Literal

namespace Piece

theorem comment?_append {p : Piece TriviaKind} (h : comment? s = .ok (some p)) :
    p.text ++ p.rest = s := by
  unfold comment? at h
  split at h
  · cases h
    simp only [Literal.afterLine, List.cons_append, List.takeWhile_append_dropWhile]
  · split at h
    · cases h
    · rename_i ended
      cases h
      exact textBefore_append ((Literal.afterBlockComment_suffix ended).trans
        ((List.suffix_cons _ _).trans (List.suffix_cons _ _)))
  · cases h

theorem afterDisabled_suffix (s : List Char) : afterDisabled s <:+ s := by
  fun_induction afterDisabled s with
  | case1 => exact List.suffix_rfl
  | case2 => exact List.suffix_rfl
  | case3 => exact List.nil_suffix
  | case4 c rest _ b rest' ended ih =>
    have line := Literal.afterLine_suffix (c :: rest)
    rw [ended] at line
    exact ih.trans ((splitBreak_suffix _).trans line)

theorem splitNumber_append (hex : Bool) (previous : Char) (s : List Char) :
    (splitNumber hex previous s).1 ++ (splitNumber hex previous s).2 = s := by
  induction s generalizing previous with
  | nil => rfl
  | cons c rest ih =>
    unfold splitNumber
    split
    · exact congrArg (c :: ·) (ih c)
    · rfl

theorem plain_append (c : Char) (rest : List Char) :
    (plain c rest).text ++ (plain c rest).rest = c :: rest := by
  unfold plain
  split
  · exact congrArg (c :: ·) List.takeWhile_append_dropWhile
  · split
    · exact congrArg (c :: ·) (splitNumber_append _ _ _)
    · exact List.take_append_drop _ _

theorem lexeme_append {c : Char} {p : Piece LexemeKind} (h : lexeme c rest = .ok p) :
    p.text ++ p.rest = c :: rest := by
  unfold lexeme at h
  split at h
  · cases h
  · rename_i ended
    cases h
    exact textBefore_append (Literal.after_suffix ended)
  · cases h
    exact plain_append c rest

end Piece

namespace Span

@[simp] theorem text_nil : Span.text [] = "" := rfl

@[simp] theorem text_cons (t : Trivia) (span : Span) :
    Span.text (t :: span) = t.text ++ Span.text span := rfl

@[simp] theorem text_append (a b : Span) : Span.text (a ++ b) = Span.text a ++ Span.text b := by
  induction a with
  | nil => simp
  | cons t a ih => simp only [List.cons_append, text_cons, ih, String.append_assoc]

end Span

namespace Cursor

/-- The text that is left to read. -/
def ahead (c : Cursor) : String :=
  String.ofList c.rest

theorem terminator_text (c : Cursor) : Span.text c.terminator.1 ++ c.terminator.2.ahead = c.ahead := by
  unfold terminator
  split
  · exact String.empty_append
  · rename_i b rest eq
    split
    · simp only [Span.text_cons, Span.text_nil, String.append_empty, ahead, move]
      rw [← String.ofList_append, splitBreak_append, eq]
    · exact String.empty_append

variable {c' : Cursor} {span : Span}

theorem inlinePiece_text {t : Trivia} (h : c.inlinePiece = .ok (some (t, c'))) :
    t.text ++ c'.ahead = c.ahead := by
  unfold inlinePiece at h
  split at h
  · cases h
  · rename_i a rest eq
    split at h
    · cases h
      simp only [ahead, move]
      rw [← String.ofList_append, eq, List.cons_append, List.takeWhile_append_dropWhile]
    · split at h
      · cases h
      · cases h
      · rename_i found
        cases h
        simp only [ahead, move]
        rw [← String.ofList_append, Piece.comment?_append found, eq]

theorem deadBranch_text (c : Cursor) :
    Span.text c.deadBranch.1 ++ c.deadBranch.2.ahead = c.ahead := by
  have line := c.terminator_text
  have dead := textBefore_append (Piece.afterDisabled_suffix c.terminator.2.rest)
  simp only [deadBranch, Span.text_append, ahead, move] at line ⊢
  split
  · rename_i empty
    rw [List.isEmpty_iff.mp empty, List.nil_append] at dead
    rw [Span.text_nil, String.append_empty, dead, line]
  · rw [Span.text_cons, Span.text_nil, String.append_empty, String.append_assoc,
      ← String.ofList_append, dead, line]

theorem directive_text (h : c.directive = .ok (span, c')) :
    Span.text span ++ c'.ahead = c.ahead := by
  have line : String.ofList (c.rest.takeWhile fun a => !isLineBreak a) ++
      String.ofList (Literal.afterLine c.rest) = c.ahead := by
    rw [← String.ofList_append, Literal.afterLine, List.takeWhile_append_dropWhile]
    rfl
  simp only [directive] at h
  split at h
  · cases h
  · split at h
    · cases h
      simpa [ahead, move] using line
    · cases h
      rw [Span.text_cons, String.append_assoc, deadBranch_text]
      exact line

theorem leadingPiece_text (h : c.leadingPiece = .ok (some (span, c'))) :
    Span.text span ++ c'.ahead = c.ahead := by
  unfold leadingPiece at h
  split at h
  · cases h
  · split at h
    · have := c.terminator_text
      rwa [Option.some.inj (Except.ok.inj h)] at this
    · split at h
      · split at h
        · cases h
        · rename_i r found
          cases h
          exact directive_text found
      · split at h
        · cases h
        · cases h
        · rename_i found
          cases h
          simpa using inlinePiece_text found

theorem leading_text (h : c.leading = .ok (span, c')) : Span.text span ++ c'.ahead = c.ahead := by
  fun_induction leading c generalizing span c' with
  | case1 => cases h
  | case2 => cases h; exact String.empty_append
  | case3 => cases h
  | case4 c s c₁ piece more c₂ found ih =>
    cases h
    rw [Span.text_append, String.append_assoc, ih found, leadingPiece_text piece]

theorem trailing_text (h : c.trailing = .ok (span, c')) : Span.text span ++ c'.ahead = c.ahead := by
  fun_induction trailing c generalizing span c' with
  | case1 => cases h
  | case2 c _ =>
    have := c.terminator_text
    rwa [Except.ok.inj h] at this
  | case3 => cases h
  | case4 c t c₁ piece more c₂ found ih =>
    cases h
    rw [Span.text_cons, String.append_assoc, ih found, inlinePiece_text piece]

theorem lexeme_text {a : Char} {l : Lexeme} (h : c.lexeme a rest = .ok (l, c')) :
    l.text ++ c'.ahead = String.ofList (a :: rest) := by
  unfold lexeme at h
  split at h
  · cases h
  · rename_i found
    cases h
    simp only [ahead, move]
    rw [← String.ofList_append, Piece.lexeme_append found]

end Cursor

def Token.textAll : List Token → String
  | [] => ""
  | t :: rest => t.fullText ++ textAll rest

def TokenStream.text (s : TokenStream) : String :=
  Token.textAll s.tokens ++ Span.text s.tail

theorem Cursor.tokens_text {s : TokenStream} (h : c.tokens = .ok s) : s.text = c.ahead := by
  fun_induction Cursor.tokens c generalizing s with
  | case1 => cases h
  | case2 c leading c₁ lead ended =>
    cases h
    have := leading_text lead
    simpa [TokenStream.text, Token.textAll, ahead, ended] using this
  | case3 => cases h
  | case4 => cases h
  | case5 => cases h
  | case6 => cases h
  | case7 c leading c₁ lead a rest ahead₁ l c₂ found trailing c₃ trail s' more ih =>
    cases h
    have tail := ih more
    simp only [TokenStream.text] at tail
    simp only [TokenStream.text, Token.textAll, Token.fullText, String.append_assoc]
    rw [tail, trailing_text trail, lexeme_text found, ← ahead₁]
    exact leading_text lead

theorem Cursor.tokens_forall {P : Token → Prop} {s : TokenStream} (h : c.tokens = .ok s)
    (found : ∀ {c c₁ c₂ c₃ : Cursor} {before behind : Span} {a : Char} {rest : List Char}
      {l : Lexeme}, c.leading = .ok (before, c₁) → c₁.rest = a :: rest →
      c₁.lexeme a rest = .ok (l, c₂) → c₂.trailing = .ok (behind, c₃) →
      P ⟨l, before, behind, c₁.position⟩) : ∀ t ∈ s.tokens, P t := by
  fun_induction Cursor.tokens c generalizing s with
  | case1 => cases h
  | case2 =>
    cases h
    exact fun _ mem => nomatch mem
  | case3 => cases h
  | case4 => cases h
  | case5 => cases h
  | case6 => cases h
  | case7 c before c₁ lead a rest ahead₁ l c₂ lexed behind c₃ trail s' more ih =>
    cases h
    exact List.forall_mem_cons.mpr ⟨found lead ahead₁ lexed trail, ih more⟩

theorem tokenize_text {text : List Char} {symbols : List String} {s : TokenStream}
    (h : tokenize text symbols = .ok s) : s.text = String.ofList text :=
  Cursor.tokens_text h

end CSharpTidy
