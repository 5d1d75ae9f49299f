import CSharpTidy.Proofs.TracedTokens

/- The shape of a stream of tokens, in one place. Its text is the text it was read from; trailing
   trivia stay on their line; a directive has its line to itself; a line comment goes to the end of
   its line; and the directives in front of a token leave conditional compilation active. -/
namespace CSharpTidy

theorem Conditional.step_of_apply {c c' : Conditional} {kind : DirectiveKind} {line : List Char}
    (h : c.apply kind line = .ok c') : c.step ⟨kind, line⟩ = c' := by
  unfold apply at h
  unfold step
  split at h
  · rename_i done
    cases h
    simp only [done]
  · cases h

variable {t : Trivia} {rest s : List Char} {r r' : Reader}

namespace Atom

def call? : Atom → Option Conditional.Call
  | .trivia t =>
      match t.kind with
      | .directive kind => some ⟨kind, t.text.toList⟩
      | _ => none
  | .token _ => none

def calls (as : List Atom) : List Conditional.Call :=
  as.filterMap call?

theorem call?_of_isComment (h : t.isComment) : call? (.trivia t) = none := by
  cases kind : t.kind <;> simp_all [call?, Trivia.isComment]

theorem Passed.conditional {a : Atom} (h : a.Passed rest r r') :
    r'.conditional = a.call?.elim r.conditional r.conditional.step := by
  cases h with
  | space kind => simp [call?, kind]
  | lineEnd kind => simp [call?, kind]
  | @comment t active found =>
    have comment : t.isComment := Piece.comment?_isComment found t.text
    simp [call?_of_isComment comment]
  | directive kind _ _ _ _ _ applied => simp [call?, kind, Conditional.step_of_apply applied]
  | disabled kind => simp [call?, kind]
  | token => rfl

end Atom

section Trace

variable {r r' : Reader} {s s' : List Char}

theorem Trace.conditional {as : List Atom} (h : Trace r as s r' s') :
    r'.conditional = r.conditional.run (Atom.calls as) := by
  induction h with
  | nil => rfl
  | @cons _ _ _ a as _ _ _ first _ _ ih =>
    rw [ih, first.conditional, Atom.calls, Atom.calls, List.filterMap_cons]
    cases a.call? <;> rfl

theorem Trace.active {front back : List Atom} {l : Lexeme}
    (h : Trace r (front ++ .token l :: back) s r' s') :
    (r.conditional.run (Atom.calls front)).isActive := by
  obtain ⟨r₁, s₁, before, behind⟩ := h.split
  rw [← before.conditional]
  cases behind with
  | cons first _ _ =>
    cases first with
    | token active => exact active

/-- Behind the last line break, or from the start of the span on, there is white space only. -/
def Span.EndsBlank (span : Span) : Prop :=
  ∃ earlier blanks, span = earlier ++ blanks ∧ (∀ x ∈ blanks, x.isWhitespace) ∧
    ∀ x ∈ earlier.getLast?, x.breaksLine

theorem Span.endsBlank_of_breaksLine (h : t.breaksLine) (span : Span) :
    Span.EndsBlank (span ++ [t]) :=
  ⟨span ++ [t], [], by simp, by simp, by simp [h]⟩

/-- A reader in front of whose place a line can still start has passed white space only since the
last line break. -/
theorem Trace.endsBlank {span : Span} (h : Trace r (span.map .trivia) s r' s')
    (outside : r'.place ≠ .inside) : span.EndsBlank := by
  -- by induction from the back, since the place tells what was passed last
  induction span using List.reverseRecOn generalizing r' s' with
  | nil => exact ⟨[], [], rfl, by simp, by simp⟩
  | append_singleton span t ih =>
    rw [List.map_append] at h
    obtain ⟨r₁, s₁, before, last⟩ := h.split
    cases last with
    | cons first whole none =>
      cases none
      cases first with
      | space kind nonempty spaces =>
        rw [ne_eq, Place.after_eq_inside_iff spaces] at outside
        obtain ⟨earlier, blanks, rfl, blank, breaks⟩ := ih before outside
        refine ⟨earlier, blanks ++ [t], by simp, ?_, breaks⟩
        simpa [or_imp, forall_and, Trivia.isWhitespace, kind] using blank
      | lineEnd kind => exact Span.endsBlank_of_breaksLine (by simp [Trivia.breaksLine, kind]) span
      | comment => exact absurd rfl outside
      | directive => exact absurd rfl outside
      | disabled kind => exact Span.endsBlank_of_breaksLine (by simp [Trivia.breaksLine, kind]) span

end Trace

theorem Piece.comment?_line {p : Piece TriviaKind} (h : comment? s = .ok (some p))
    (kind : p.kind = .lineComment ∨ p.kind = .docComment) :
    ∀ b, p.rest.head? = some b → isLineBreak b := by
  unfold comment? at h
  split at h
  · cases h
    intro b head
    obtain ⟨rest, behind⟩ := List.head?_eq_some_iff.mp head
    exact Literal.afterLine_head behind
  · split at h
    · cases h
    · cases h
      simp at kind
  · cases h

theorem Atom.Passed.lineEnd_of_break {a : Atom} (h : a.Passed rest r r')
    (active : r.conditional.isActive)
    (breaks : ∀ b, (a.text ++ rest).head? = some b → isLineBreak b) :
    ∃ t, a = .trivia t ∧ t.isEndOfLine := by
  cases h with
  | @space t kind nonempty spaces =>
    obtain ⟨b, more, text⟩ := List.exists_cons_of_ne_nil nonempty
    have breaks := breaks b (by simp [Atom.text, text])
    have space := spaces b (by simp [text])
    rw [isSpace_eq_false_of_isLineBreak breaks] at space
    cases space
  | @lineEnd t kind => exact ⟨t, rfl, by simp [Trivia.isEndOfLine, kind]⟩
  | comment _ found =>
    obtain ⟨more, front⟩ := Piece.comment?_front found
    exact absurd (breaks '/' (by simp [Atom.text, front])) (by decide)
  | directive _ hash => exact absurd (breaks '#' (by simp [Atom.text, hash])) (by decide)
  | disabled _ _ inactive =>
    rw [inactive] at active
    cases active
  | @token l a s _ front solid =>
    have breaks := breaks a (by simp [Atom.text, front])
    simp [isVoid, breaks] at solid

theorem Trace.line_comment {s' : List Char} {back : List Atom}
    (h : Trace r (.trivia t :: back) s r' s')
    (kind : t.kind = .lineComment ∨ t.kind = .docComment) :
    ∀ a ∈ back.head?, ∃ e, a = .trivia e ∧ e.isEndOfLine := by
  intro a next
  obtain ⟨more, rfl⟩ := List.head?_eq_some_iff.mp next
  cases h with
  | cons first _ behind =>
    cases behind with
    | cons second whole _ =>
      cases first with
      | comment active found =>
        exact second.lineEnd_of_break active (whole ▸ Piece.comment?_line found kind)
      | space other => simp [other] at kind
      | lineEnd other => simp [other] at kind
      | directive other => simp [other] at kind
      | disabled other => simp [other] at kind

namespace Cursor

variable {es : List Element} {c c' : Cursor} {side : Side}

theorem inlinePiece_kind (h : c.inlinePiece = .ok (some (t, c'))) :
    t.isWhitespace ∨ t.isComment := by
  unfold inlinePiece at h
  split at h
  · cases h
  · split at h
    · cases h
      exact .inl rfl
    · split at h
      · cases h
      · cases h
      · rename_i found
        cases h
        exact .inr (Piece.comment?_isComment found _)

theorem Step.trailing_kind {side' : Side} (h : Step side c es side' c')
    (mem : .trivia .trailing t ∈ es) : t.isWhitespace ∨ t.isComment ∨ t.isEndOfLine := by
  cases h with
  | piece => simp [Span.elements] at mem
  | lexeme => simp at mem
  | inline found =>
    obtain rfl : t = _ := by simpa [Span.elements] using mem
    exact (inlinePiece_kind found).imp_right .inl
  | lineEnd =>
    have ends : t ∈ c.terminator.1 := by simpa [Span.elements] using mem
    exact .inr (.inr (c.terminator_lexed t ends).1)

theorem Run.trailing_kind (h : Run side c es) (mem : .trivia .trailing t ∈ es) :
    t.isWhitespace ∨ t.isComment ∨ t.isEndOfLine := by
  induction h with
  | done => cases mem
  | step first _ ih =>
    rcases List.mem_append.mp mem with here | later
    · exact first.trailing_kind here
    · exact ih later

end Cursor

namespace TokenStream

variable {before after : List Token} {s : TokenStream}

theorem trailing_mem_elements {t : Token} (mem : t ∈ s.tokens) {x : Trivia}
    (inside : x ∈ t.trailing) : .trivia .trailing x ∈ s.elements := by
  refine List.mem_append_left _ (List.mem_flatMap.mpr ⟨t, mem, ?_⟩)
  simp [Token.elements, Span.elements, inside]

theorem Chained.joint {tail : Span} {t : Token} (h : Chained tail (before ++ t :: after)) :
    t.trailing.Joint (front tail after) := by
  induction before with
  | nil => exact h.1
  | cons _ before ih => exact ih h.2

theorem atoms_split (split : s.tokens = before ++ after) :
    ∃ rest, s.atoms = before.flatMap Token.atoms ++ ((front s.tail after).map .trivia ++ rest) := by
  rw [atoms, split, List.flatMap_append, List.append_assoc]
  cases after with
  | nil => exact ⟨[], by simp [front]⟩
  | cons t after =>
    refine ⟨.token t.toLexeme :: t.trailing.map .trivia ++
      (after.flatMap Token.atoms ++ s.tail.map .trivia), ?_⟩
    simp [front, Token.atoms]

/-- What holds of the tokens of a text. The end of the text is a token without text and trailing
trivia; `tail` stands in front of it. -/
structure Shaped (source : List Char) (symbols : List String) (s : TokenStream) : Prop where
  text : s.text = String.ofList source
  nonempty : ∀ t ∈ s.tokens, t.text ≠ ""
  /-- Behind a token there are white space and comments, and at most one line break, the last. -/
  trailing : ∀ t ∈ s.tokens,
    (∀ x ∈ t.trailing, x.isWhitespace ∨ x.isComment ∨ x.isEndOfLine) ∧
      ∀ x ∈ t.trailing.dropLast, x.isEndOfLine = false
  /-- Only a token that starts its line has leading trivia. -/
  leading : ∀ before t after, s.tokens = before ++ t :: after → t.trailing.endsLine = false →
    front s.tail after = []
  /-- Only white space stands in front of a directive on its line, which starts in its span. -/
  directives : ∀ before after, s.tokens = before ++ after →
    ∀ earlier d later, front s.tail after = earlier ++ d :: later → d.isDirective →
      Span.EndsBlank earlier ∧ ∀ t ∈ before.getLast?, t.trailing.endsLine
  /-- A line comment goes to the end of its line. -/
  comments : ∀ earlier x later, s.atoms = earlier ++ .trivia x :: later →
    x.kind = .lineComment ∨ x.kind = .docComment →
      ∀ a ∈ later.head?, ∃ e, a = .trivia e ∧ e.isEndOfLine
  /-- The directives in front of a token leave conditional compilation active, and all of them
  leave no conditional open. -/
  active : ∀ earlier l later, s.atoms = earlier ++ .token l :: later →
    ((Conditional.ofSymbols symbols).run (Atom.calls earlier)).isActive
  closed : ((Conditional.ofSymbols symbols).run (Atom.calls s.atoms)).branches = []

theorem endsBlank_of_directive {text : List Char} (h : Trace r s.atoms text r' rest)
    (split : s.tokens = before ++ after) {earlier later : Span} {d : Trivia}
    (inside : front s.tail after = earlier ++ d :: later) (directive : d.isDirective) :
    Span.EndsBlank earlier := by
  obtain ⟨others, atoms⟩ := atoms_split split
  rw [atoms, inside, List.map_append, List.append_assoc] at h
  obtain ⟨r₁, s₁, -, behind⟩ := h.split
  obtain ⟨r₂, s₂, span, line⟩ := behind.split
  refine span.endsBlank ?_
  cases line with
  | cons first _ _ =>
    cases first with
    | directive _ _ _ _ opens => exact opens
    | space kind | lineEnd kind => simp [Trivia.isDirective, kind] at directive
    | comment _ found =>
      have comment := Piece.comment?_isComment found d.text
      cases kind : d.kind <;> simp_all [Trivia.isDirective, Trivia.isComment]
    | disabled kind => simp [Trivia.isDirective, kind] at directive

end TokenStream

/-- The tokens of a text have the shape of a stream. -/
theorem tokenize_shaped {source : List Char} {symbols : List String} {s : TokenStream}
    (h : tokenize source symbols = .ok s) : s.Shaped source symbols := by
  have lexed := tokenize_lexed h
  obtain ⟨r', trace, closed⟩ := tokenize_traced h
  have joined : ∀ before t after, s.tokens = before ++ t :: after → t.trailing.endsLine = false →
      TokenStream.front s.tail after = [] := by
    intro before t after split inline
    exact (split ▸ lexed.chained : TokenStream.Chained s.tail (before ++ t :: after)).joint.inline
      inline
  rw [trace.conditional] at closed
  refine ⟨tokenize_text h, ?_, ?_, joined, ?_, ?_, ?_, closed⟩
  · intro t mem empty
    obtain ⟨a, head, -⟩ := (lexed.tokens t mem).text
    simp [empty] at head
  · intro t mem
    refine ⟨?_, (lexed.tokens t mem).trailing.inline⟩
    intro x inside
    exact (Cursor.run_of_tokens h).trailing_kind (TokenStream.trailing_mem_elements mem inside)
  · intro before after split earlier d later inside directive
    refine ⟨TokenStream.endsBlank_of_directive trace split inside directive, ?_⟩
    intro t last
    obtain ⟨front, rfl⟩ := List.getLast?_eq_some_iff.mp last
    by_contra inline
    have none := joined front t after (by simp [split]) (by simpa using inline)
    simp [none] at inside
  · intro earlier x later split kind
    rw [split] at trace
    obtain ⟨r₁, s₁, -, behind⟩ := trace.split
    exact behind.line_comment kind
  · intro earlier l later split
    exact (split ▸ trace : Trace _ (earlier ++ .token l :: later) _ _ _).active

/-- In front of `y` there are two directives with a dead branch between them, and behind it there is
a comment that ends the text. -/
theorem tokenize_shaped_disabled :
    let source := "#if A\nx\n #endif\ny // z".toList
    let leading : Span := [⟨.directive .ifTest, "#if A"⟩, ⟨.endOfLine, "\n"⟩, ⟨.disabled, "x\n"⟩,
      ⟨.whitespace, " "⟩, ⟨.directive .endIf, "#endif"⟩, ⟨.endOfLine, "\n"⟩]
    let s : TokenStream := ⟨[⟨⟨.word, "y"⟩, leading, [⟨.whitespace, " "⟩, ⟨.lineComment, "// z"⟩],
      ⟨4, 1⟩⟩], [], ⟨4, 7⟩⟩
    tokenize source [] = .ok s ∧ s.Shaped source [] := by
  intro source leading s
  have found : tokenize source [] = .ok s := by decide +kernel
  exact ⟨found, tokenize_shaped found⟩

end CSharpTidy
