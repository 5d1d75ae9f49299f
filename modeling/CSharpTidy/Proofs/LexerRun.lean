import CSharpTidy.Proofs.LexedSpans

/- The lexer as a machine that passes one piece of text after the other. The tokens of a text are
   what a run of the machine to the end of the text gives; positions play no part in it. -/
namespace CSharpTidy

inductive Side where
  | leading | trailing
  deriving DecidableEq, Repr

inductive Element where
  | trivia (side : Side) (t : Trivia)
  | lexeme (l : Lexeme)
  deriving DecidableEq, Repr

def Element.text : Element → List Char
  | .trivia _ t => t.text.toList
  | .lexeme l => l.text.toList

def Span.elements (side : Side) (span : Span) : List Element :=
  span.map (.trivia side)

def Token.elements (t : Token) : List Element :=
  Span.elements .leading t.leading ++ .lexeme t.toLexeme :: Span.elements .trailing t.trailing

def TokenStream.elements (s : TokenStream) : List Element :=
  s.tokens.flatMap Token.elements ++ Span.elements .leading s.tail

@[simp] theorem Span.elements_nil (side : Side) : Span.elements side [] = [] := rfl

@[simp] theorem Span.elements_append (side : Side) (a b : Span) :
    Span.elements side (a ++ b) = Span.elements side a ++ Span.elements side b :=
  List.map_append ..

theorem Span.elements_text (side : Side) (span : Span) :
    (Span.elements side span).flatMap Element.text = (Span.text span).toList := by
  induction span with
  | nil => rfl
  | cons t rest ih =>
    rw [text_cons, String.toList_append, ← ih]
    rfl

namespace Cursor

inductive Step : Side → Cursor → List Element → Side → Cursor → Prop
  | piece {c c' : Cursor} {span : Span} (h : c.leadingPiece = .ok (some (span, c'))) :
      Step .leading c (Span.elements .leading span) .leading c'
  | lexeme {c c' : Cursor} {a : Char} {rest : List Char} {l : Lexeme}
      (stopped : c.leadingPiece = .ok none) (ahead : c.rest = a :: rest)
      (h : c.lexeme a rest = .ok (l, c')) : Step .leading c [.lexeme l] .trailing c'
  | inline {c c' : Cursor} {t : Trivia} (h : c.inlinePiece = .ok (some (t, c'))) :
      Step .trailing c (Span.elements .trailing [t]) .trailing c'
  | lineEnd {c : Cursor} (stopped : c.inlinePiece = .ok none) :
      Step .trailing c (Span.elements .trailing c.terminator.1) .leading c.terminator.2

/-- Steps up to the end of the text, where no conditional is open. -/
inductive Run : Side → Cursor → List Element → Prop
  | done {c : Cursor} (ended : c.rest = []) (closed : c.opened = []) : Run .leading c []
  | step {side side' : Side} {c c' : Cursor} {es fs : List Element}
      (first : Step side c es side' c') (more : Run side' c' fs) : Run side c (es ++ fs)

variable {es : List Element} {c c' c'' : Cursor} {s : TokenStream} {side side' : Side}
  {span more : Span}

theorem Step.text (h : Step side c es side' c') : c.rest = es.flatMap Element.text ++ c'.rest := by
  have toList : ∀ {s : String} {c c' : Cursor}, s ++ c'.ahead = c.ahead →
      c.rest = s.toList ++ c'.rest := by
    intro s c c' eq
    have := congrArg String.toList eq
    simpa [ahead] using this.symm
  cases h with
  | piece h => rw [Span.elements_text, ← toList (leadingPiece_text h)]
  | lexeme stopped ahead h =>
    rw [ahead]
    have := lexeme_text h
    simpa [Element.text, Cursor.ahead] using (congrArg String.toList this).symm
  | inline h =>
    rw [Span.elements_text]
    exact toList (by simpa using inlinePiece_text h)
  | lineEnd stopped => rw [Span.elements_text, ← toList (terminator_text c)]

theorem Run.text (h : Run side c es) : c.rest = es.flatMap Element.text := by
  induction h with
  | done ended => exact ended
  | step first _ ih => rw [first.text, ih, List.flatMap_append]

inductive Found (leading : Span) (c : Cursor) : TokenStream → Prop
  | finish (ended : c.rest = []) (closed : c.opened = []) :
      Found leading c ⟨[], leading, c.position⟩
  | token {c₁ c₂ : Cursor} {a : Char} {rest : List Char} {l : Lexeme} {trailing : Span}
      {s : TokenStream} (ahead : c.rest = a :: rest) (lexeme : c.lexeme a rest = .ok (l, c₁))
      (trailed : c₁.trailing = .ok (trailing, c₂)) (more : c₂.tokens = .ok s) :
      Found leading c { s with tokens := ⟨l, leading, trailing, c.position⟩ :: s.tokens }

theorem tokens_eq_ok_iff :
    c.tokens = .ok s ↔ ∃ leading c', c.leading = .ok (leading, c') ∧ Found leading c' s := by
  constructor
  · intro h
    rw [tokens] at h
    split at h
    · cases h
    · rename_i leading c' lead
      refine ⟨leading, c', lead, ?_⟩
      split at h
      · rename_i ended
        split at h
        · rename_i closed
          cases h
          exact .finish ended closed
        · cases h
      · rename_i a rest ahead
        split at h
        · cases h
        · rename_i lexeme
          split at h
          · cases h
          · rename_i trailed
            split at h
            · cases h
            · rename_i more
              cases h
              exact .token ahead lexeme trailed more
  · rintro ⟨leading, c', lead, found⟩
    rw [tokens]
    split
    · simp_all
    · rename_i lead'
      rw [lead] at lead'
      cases lead'
      cases found with
      | finish ended closed => split <;> simp_all
      | token ahead lexeme trailed more =>
        split
        · simp_all
        · rename_i ahead'
          rw [ahead] at ahead'
          cases ahead'
          split
          · simp_all
          · rename_i lexeme'
            rw [lexeme] at lexeme'
            cases lexeme'
            split
            · simp_all
            · rename_i trailed'
              rw [trailed] at trailed'
              cases trailed'
              simp [more]

theorem leading_of_piece (piece : c.leadingPiece = .ok (some (span, c')))
    (rest : c'.leading = .ok (more, c'')) : c.leading = .ok (span ++ more, c'') := by
  rw [leading]
  split <;> simp_all

theorem trailing_of_inline {t : Trivia} (piece : c.inlinePiece = .ok (some (t, c')))
    (rest : c'.trailing = .ok (more, c'')) : c.trailing = .ok (t :: more, c'') := by
  rw [trailing]
  split <;> simp_all

theorem trailing_of_stopped (stopped : c.inlinePiece = .ok none) :
    c.trailing = .ok c.terminator := by
  rw [trailing]
  split <;> simp_all

theorem Found.prepend {leading : Span} (h : Found leading c s) (span : Span) :
 ∃ s', Found (span ++ leading) c s' ∧
      s'.elements = Span.elements .leading span ++ s.elements := by
  cases h with
  | finish ended closed =>
    exact ⟨_, .finish ended closed, by simp [TokenStream.elements]⟩
  | token ahead lexeme trailed more =>
    exact ⟨_, .token ahead lexeme trailed more,
      by simp [TokenStream.elements, Token.elements]⟩

def Yields : Side → Cursor → List Element → Prop
  | .leading, c, es => ∃ s, c.tokens = .ok s ∧ s.elements = es
  | .trailing, c, es => ∃ trailing c' s, c.trailing = .ok (trailing, c') ∧ c'.tokens = .ok s ∧
      Span.elements .trailing trailing ++ s.elements = es

theorem Step.yields {fs : List Element} (h : Step side c es side' c') (more : Yields side' c' fs) :
    Yields side c (es ++ fs) := by
  cases h with
  | @piece _ _ span piece =>
    obtain ⟨s, read, rfl⟩ := more
    obtain ⟨leading, c'', lead, found⟩ := tokens_eq_ok_iff.mp read
    obtain ⟨s', found', elements⟩ := found.prepend span
    exact ⟨s', tokens_eq_ok_iff.mpr ⟨_, _, leading_of_piece piece lead, found'⟩, elements⟩
  | lexeme stopped ahead lexeme =>
    obtain ⟨trailing, c'', s, trailed, read, rfl⟩ := more
    have found : Found [] c _ := .token ahead lexeme trailed read
    refine ⟨_, tokens_eq_ok_iff.mpr ⟨_, _, leading_of_stopped stopped, found⟩, ?_⟩
    simp [TokenStream.elements, Token.elements]
  | inline piece =>
    obtain ⟨trailing, c'', s, trailed, read, rfl⟩ := more
    exact ⟨_, c'', s, trailing_of_inline piece trailed, read, rfl⟩
  | lineEnd stopped =>
    obtain ⟨s, read, rfl⟩ := more
    exact ⟨_, _, s, trailing_of_stopped stopped, read, rfl⟩

theorem Run.yields (h : Run side c es) : Yields side c es := by
  induction h with
  | @done c ended closed =>
    have stopped : c.leadingPiece = .ok none := by simp [leadingPiece, ended]
    exact ⟨_, tokens_eq_ok_iff.mpr ⟨_, _, leading_of_stopped stopped, .finish ended closed⟩, rfl⟩
  | step first _ ih => exact first.yields ih

theorem Run.leading (h : c.leading = .ok (span, c'))
    (more : c'.leadingPiece = .ok none → Run .leading c' es) :
    Run .leading c (Span.elements .leading span ++ es) := by
  fun_induction Cursor.leading c generalizing span c' with
  | case1 => cases h
  | case2 c stopped =>
    cases h
    exact more stopped
  | case3 => cases h
  | case4 c span c₁ piece rest c₂ found ih =>
    cases h
    rw [Span.elements_append, List.append_assoc]
    exact .step (.piece piece) (ih found more)

theorem Run.trailing (h : c.trailing = .ok (span, c')) (more : Run .leading c' es) :
    Run .trailing c (Span.elements .trailing span ++ es) := by
  fun_induction Cursor.trailing c generalizing span c' with
  | case1 => cases h
  | case2 c stopped =>
    have ended := Except.ok.inj h
    have line := Step.lineEnd stopped
    rw [ended] at line
    exact .step line more
  | case3 => cases h
  | case4 c t c₁ piece rest c₂ found ih =>
    cases h
    rw [← List.singleton_append, Span.elements_append, List.append_assoc]
    exact .step (.inline piece) (ih found more)

theorem run_of_tokens (h : c.tokens = .ok s) : Run .leading c s.elements := by
  fun_induction Cursor.tokens c generalizing s with
  | case1 => cases h
  | case2 c leading c₁ lead ended closed =>
    cases h
    simpa [TokenStream.elements] using Run.leading lead fun _ => .done ended closed
  | case3 => cases h
  | case4 => cases h
  | case5 => cases h
  | case6 => cases h
  | case7 c leading c₁ lead a rest ahead l c₂ lexeme trailing c₃ trailed s more ih =>
    cases h
    have run := Run.leading lead fun stopped =>
      .step (.lexeme stopped ahead lexeme) (.trailing trailed (ih more))
    simpa [TokenStream.elements, Token.elements] using run

/-- The lexer reads a text exactly if the machine runs to its end, with the same elements. -/
theorem tokens_iff_run : (∃ s, c.tokens = .ok s ∧ s.elements = es) ↔ Run .leading c es := by
  constructor
  · rintro ⟨s, read, rfl⟩
    exact run_of_tokens read
  · exact Run.yields

end Cursor

end CSharpTidy
