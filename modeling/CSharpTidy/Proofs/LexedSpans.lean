import CSharpTidy.Layout.Spacing
import CSharpTidy.Proofs.TokenText
import Mathlib.Data.List.Chain
import Mathlib.Data.List.TakeWhile

/- The shape of the spans that the lexer makes. Blanks come in maximal pieces, trailing trivia end
   with the first line break, and a token that does not start its line has no leading trivia. -/
namespace CSharpTidy

def isVoid (c : Char) : Bool :=
  isSpace c || isLineBreak c

def IsTerminator (text : String) : Prop :=
  text = "\n" ∨ text = "\r" ∨ text = "\r\n"

structure Trivia.Lexed (t : Trivia) : Prop where
  whitespace : t.isWhitespace → t.text.toList ≠ [] ∧ ∀ c ∈ t.text.toList, isSpace c
  endOfLine : t.isEndOfLine → IsTerminator t.text

/-- Not both are white space, nor the halves of a line break. -/
structure Trivia.Apart (a b : Trivia) : Prop where
  spaces : a.isWhitespace → b.isWhitespace = false
  breaks : a = .lineEnd "\r" → b ≠ .lineEnd "\n"

structure Trivia.Leaves (t : Trivia) (rest : List Char) : Prop where
  spaces : t.isWhitespace → ∀ a, rest.head? = some a → isSpace a = false
  breaks : t = .lineEnd "\r" → rest.head? ≠ some '\n'

structure Span.LexedLeading (span : Span) : Prop where
  pieces : ∀ t ∈ span, t.Lexed
  apart : span.IsChain Trivia.Apart

/-- Only the last piece can end the line. -/
structure Span.LexedTrailing (span : Span) : Prop where
  pieces : ∀ t ∈ span, t.Lexed
  inline : ∀ t ∈ span.dropLast, t.isEndOfLine = false

/-- What a span leaves to the next one: nothing but the start of a line, and no second half of a
line break. -/
structure Span.Joint (trailing leading : Span) : Prop where
  inline : trailing.endsLine = false → leading = []
  whole : trailing.getLast? = some (.lineEnd "\r") → (Span.text leading).toList.head? ≠ some '\n'

theorem splitBreak_isTerminator {b : Char} (h : isLineBreak b) (rest : List Char) :
    IsTerminator (String.ofList (splitBreak (b :: rest)).1) := by
  simp only [isLineBreak, Bool.or_eq_true, beq_iff_eq] at h
  unfold splitBreak
  split
  · exact .inr (.inr rfl)
  · rename_i c rest' _ eq
    obtain ⟨rfl, rfl⟩ := List.cons.inj eq
    rcases h with rfl | rfl
    · exact .inl rfl
    · exact .inr (.inl rfl)
  · rename_i eq
    cases eq

variable {c c' : Cursor} {span : Span} {s : List Char} {a : Char}

theorem splitBreak_whole (h : (splitBreak s).1 = ['\r']) : (splitBreak s).2.head? ≠ some '\n' := by
  unfold splitBreak at h ⊢
  split
  · simp at h
  · rename_i c rest single
    simp only [List.cons.injEq, and_true] at h
    intro lineFeed
    obtain ⟨more, rfl⟩ := List.head?_eq_some_iff.mp lineFeed
    exact single more (by rw [h]) rfl
  · simp

theorem head_dropWhile_isSpace (h : (s.dropWhile isSpace).head? = some a) : isSpace a = false := by
  have := List.head?_dropWhile_not isSpace s
  simpa [h] using this

theorem Piece.comment?_kind {p : Piece TriviaKind} (h : comment? s = .ok (some p)) :
    p.kind ≠ .whitespace ∧ p.kind ≠ .endOfLine := by
  unfold comment? at h
  split at h
  · cases h
    unfold lineCommentKind
    split <;> simp
  · split at h <;> cases h
    simp
  · cases h

namespace Cursor

/-- A terminator is a whole line break, or nothing at all. -/
theorem terminator_cases (c : Cursor) :
    (c.terminator = ([], c) ∧ ∀ a, c.rest.head? = some a → isLineBreak a = false) ∨
      (IsTerminator (String.ofList (splitBreak c.rest).1) ∧
        c.terminator.1 = [.lineEnd (String.ofList (splitBreak c.rest).1)] ∧
        c.terminator.2.rest = (splitBreak c.rest).2) := by
  unfold terminator
  split
  · rename_i ended
    exact .inl ⟨rfl, by simp [ended]⟩
  · rename_i b rest ahead
    split
    · rename_i breaks
      rw [ahead]
      exact .inr ⟨splitBreak_isTerminator breaks rest, rfl, rfl⟩
    · rename_i unbroken
      exact .inl ⟨rfl, by simpa [ahead] using unbroken⟩

theorem terminator_lexed (c : Cursor) : ∀ t ∈ c.terminator.1, t.isEndOfLine ∧ t.Lexed := by
  rcases c.terminator_cases with ⟨nothing, -⟩ | ⟨terminator, line, -⟩
  · simp [nothing]
  · simp only [line, List.mem_singleton, forall_eq]
    exact ⟨rfl, by simp [Trivia.lineEnd, Trivia.isWhitespace], fun _ => terminator⟩

theorem inlinePiece_lexed {t : Trivia} (h : c.inlinePiece = .ok (some (t, c'))) :
    t.isEndOfLine = false ∧ t.Lexed ∧ (t.isWhitespace → ∀ a, c'.rest.head? = some a → isSpace a = false)
      ∧ (c.lineStart = false → c'.lineStart = false) := by
  unfold inlinePiece at h
  split at h
  · cases h
  · rename_i a rest _
    split at h
    · rename_i space
      cases h
      refine ⟨rfl, ⟨fun _ => ?_, fun eol => by cases eol⟩, fun _ b => head_dropWhile_isSpace, id⟩
      simp only [String.toList_ofList]
      refine ⟨by simp, List.forall_mem_cons.mpr ⟨space, fun c mem => ?_⟩⟩
      exact List.mem_takeWhile_imp mem
    · split at h
      · cases h
      · cases h
      · rename_i p found
        cases h
        obtain ⟨notSpace, notEnd⟩ := Piece.comment?_kind found
        exact ⟨by simpa [Trivia.isEndOfLine] using notEnd,
          ⟨by simp [Trivia.isWhitespace, notSpace], by simp [Trivia.isEndOfLine, notEnd]⟩,
          by simp [Trivia.isWhitespace, notSpace], fun _ => rfl⟩

theorem terminator_leaves (c : Cursor) :
    ∀ t ∈ c.terminator.1, t.Leaves c.terminator.2.rest := by
  rcases c.terminator_cases with ⟨nothing, -⟩ | ⟨-, line, rest⟩
  · simp [nothing]
  · simp only [line, List.mem_singleton, forall_eq]
    refine ⟨by simp [Trivia.lineEnd, Trivia.isWhitespace], fun lone => ?_⟩
    rw [Trivia.lineEnd, Trivia.lineEnd, Trivia.mk.injEq] at lone
    rw [rest]
    exact splitBreak_whole (by simpa using congrArg String.toList lone.2)

theorem lexedLeading_of_solid (lexed : ∀ t ∈ span, t.isWhitespace = false ∧ t.Lexed)
    (once : span.Pairwise fun a b => a.isEndOfLine → b.isEndOfLine = false) :
    span.LexedLeading := by
  refine ⟨fun t mem => (lexed t mem).2, List.Pairwise.isChain ?_⟩
  have solid : span.Pairwise fun _ b => b.isWhitespace = false :=
    List.pairwise_of_forall_mem_list fun _ _ b mem => (lexed b mem).1
  refine (solid.and once).imp fun {a b} h => ⟨fun _ => h.1, ?_⟩
  rintro rfl rfl
  cases h.2 rfl

theorem lexed_of_solid {t : Trivia} (h : t.isBlank = false) :
    t.isWhitespace = false ∧ t.Lexed ∧ ∀ rest, t.Leaves rest := by
  simp only [Trivia.isBlank, Bool.or_eq_false_iff] at h
  refine ⟨h.1, ⟨by simp [h.1], by simp [h.2]⟩, fun rest => ⟨by simp [h.1], ?_⟩⟩
  rintro rfl
  cases h.2

theorem terminator_length_le_one (c : Cursor) : c.terminator.1.length ≤ 1 := by
  rcases c.terminator_cases with ⟨none, -⟩ | ⟨-, one, -⟩
  · simp [none]
  · simp [one]

theorem deadBranch_lexed (c : Cursor) {line : Trivia} (solid : line.isBlank = false) :
    Span.LexedLeading (line :: c.deadBranch.1) ∧
      ∀ t, (line :: c.deadBranch.1).getLast? = some t → t.Leaves c.deadBranch.2.rest := by
  obtain ⟨lineSpace, lineLexed, lineLeaves⟩ := lexed_of_solid solid
  have lineEnds : line.isEndOfLine = false := by simp_all [Trivia.isBlank]
  have short := c.terminator_length_le_one
  have ends := c.terminator_lexed
  have leaves := c.terminator_leaves
  simp only [deadBranch]
  generalize c.terminator = lineEnd at *
  obtain ⟨pieces, passed⟩ := lineEnd
  simp only at short ends leaves ⊢
  have space : ∀ t ∈ pieces, t.isWhitespace = false := by
    intro t mem
    have := (ends t mem).1
    simp_all [Trivia.isEndOfLine, Trivia.isWhitespace]
  split
  · rename_i nothing
    have same : Piece.afterDisabled passed.rest = passed.rest := by
      have whole := textBefore_append (Piece.afterDisabled_suffix passed.rest)
      rwa [List.isEmpty_iff.mp nothing, List.nil_append] at whole
    simp only [move, same, List.append_nil]
    rcases pieces with _ | ⟨t, _ | ⟨u, more⟩⟩
    · exact ⟨lexedLeading_of_solid (by simp [lineSpace, lineLexed]) (by simp),
        by simpa using lineLeaves _⟩
    · refine ⟨lexedLeading_of_solid ?_ (by simp [lineEnds]), by simpa using leaves⟩
      simpa [lineSpace, lineLexed] using ⟨space t (by simp), (ends t (by simp)).2⟩
    · simp at short
  · obtain ⟨deadSpace, deadLexed, deadLeaves⟩ := @lexed_of_solid ⟨.disabled, String.ofList
      (textBefore passed.rest (Piece.afterDisabled passed.rest))⟩ rfl
    rcases pieces with _ | ⟨t, _ | ⟨u, more⟩⟩
    · refine ⟨lexedLeading_of_solid ?_ (by simp [lineEnds]), by simpa using deadLeaves _⟩
      simpa [lineSpace, lineLexed] using ⟨deadSpace, deadLexed⟩
    · have deadEnds : ∀ text, Trivia.isEndOfLine ⟨.disabled, text⟩ = false := fun _ => rfl
      refine ⟨lexedLeading_of_solid ?_ (by simp [lineEnds, deadEnds]), by simpa using deadLeaves _⟩
      simpa [lineSpace, lineLexed] using
        ⟨⟨space t (by simp), (ends t (by simp)).2⟩, deadSpace, deadLexed⟩
    · simp at short

theorem directive_lexed (h : c.directive = .ok (span, c')) :
    span.LexedLeading ∧ ∀ t, span.getLast? = some t → t.Leaves c'.rest := by
  simp only [directive] at h
  split at h
  · cases h
  · split at h
    · cases h
      obtain ⟨space, lexed, leaves⟩ := @lexed_of_solid
        ⟨.directive _, String.ofList (c.rest.takeWhile fun a => !isLineBreak a)⟩ rfl
      exact ⟨lexedLeading_of_solid (by simpa using ⟨space, lexed⟩) (by simp),
        by simpa using leaves _⟩
    · cases h
      exact deadBranch_lexed _ rfl

theorem leadingPiece_lexed (h : c.leadingPiece = .ok (some (span, c'))) :
    span.LexedLeading ∧ ∀ t, span.getLast? = some t → t.Leaves c'.rest := by
  unfold leadingPiece at h
  split at h
  · cases h
  · split at h
    · have ends := c.terminator_lexed
      have leaves := c.terminator_leaves
      have found := Option.some.inj (Except.ok.inj h)
      rw [found] at ends leaves
      refine ⟨lexedLeading_of_solid (fun t mem => ⟨?_, (ends t mem).2⟩) ?_,
        fun t last => leaves t (List.mem_of_getLast? last)⟩
      · have := (ends t mem).1
        simp_all [Trivia.isEndOfLine, Trivia.isWhitespace]
      · have short := c.terminator_length_le_one
        rw [found] at short
        rcases span with _ | ⟨t, _ | ⟨u, more⟩⟩
        · exact .nil
        · exact List.pairwise_singleton ..
        · simp at short
    · split at h
      · split at h
        · cases h
        · rename_i r found
          cases h
          exact directive_lexed found
      · split at h
        · cases h
        · cases h
        · rename_i t c₁ found
          cases h
          obtain ⟨inline, lexed, behind, -⟩ := inlinePiece_lexed found
          refine ⟨⟨by simpa using lexed, List.isChain_singleton t⟩, ?_⟩
          intro last eq
          obtain rfl : t = last := by simpa using eq
          refine ⟨behind, ?_⟩
          rintro rfl
          cases inline

theorem leading_rest (h : c.leading = .ok (span, c')) :
    c.rest = (Span.text span).toList ++ c'.rest := by
  have := congrArg String.toList (leading_text h)
  simpa [ahead] using this.symm

theorem leading_lexed (h : c.leading = .ok (span, c')) : span.LexedLeading := by
  fun_induction leading c generalizing span c' with
  | case1 => cases h
  | case2 => cases h; exact ⟨by simp, List.isChain_nil⟩
  | case3 => cases h
  | case4 c s c₁ piece more c₂ found ih =>
    cases h
    obtain ⟨first, behind⟩ := leadingPiece_lexed piece
    have rest := ih found
    refine ⟨List.forall_mem_append.mpr ⟨first.pieces, rest.pieces⟩,
      List.isChain_append.mpr ⟨first.apart, rest.apart, fun a last b head => ⟨fun space => ?_, ?_⟩⟩⟩
    · -- white space in front of `b` would still be part of `a`
      by_contra spaceB
      obtain ⟨more', rfl⟩ := List.head?_eq_some_iff.mp head
      obtain ⟨nonempty, spaces⟩ := (rest.pieces b (by simp)).whitespace (by simpa using spaceB)
      obtain ⟨x, xs, text⟩ := List.exists_cons_of_ne_nil nonempty
      have ahead := leading_rest found
      rw [Span.text_cons, String.toList_append, text] at ahead
      have notSpace := (behind a last).spaces space x (by simp [ahead])
      rw [spaces x (by simp [text])] at notSpace
      cases notSpace
    · rintro lone rfl
      obtain ⟨more', rfl⟩ := List.head?_eq_some_iff.mp head
      refine (behind a last).breaks lone ?_
      simp [leading_rest found, Span.text_cons, Trivia.lineEnd]

theorem trailing_lexed (h : c.trailing = .ok (span, c')) : span.LexedTrailing := by
  fun_induction trailing c generalizing span c' with
  | case1 => cases h
  | case2 c _ =>
    have ends := c.terminator_lexed
    obtain rfl : c.terminator.1 = span := by rw [Except.ok.inj h]
    refine ⟨fun t mem => (ends t mem).2, ?_⟩
    rcases c.terminator_cases with ⟨nothing, -⟩ | ⟨-, line, -⟩
    · simp [nothing]
    · simp [line]
  | case3 => cases h
  | case4 c t c₁ piece more c₂ found ih =>
    cases h
    obtain ⟨inline, lexed, -, -⟩ := inlinePiece_lexed piece
    have rest := ih found
    refine ⟨List.forall_mem_cons.mpr ⟨lexed, rest.pieces⟩, fun a mem => ?_⟩
    cases more with
    | nil => cases mem
    | cons b more =>
      rw [List.dropLast_cons_cons] at mem
      rcases List.mem_cons.mp mem with rfl | mem
      · exact inline
      · exact rest.inline a mem

theorem leading_of_stopped (h : c.leadingPiece = .ok none) : c.leading = .ok ([], c) := by
  rw [leading]
  split <;> simp_all

theorem leading_of_trailing_inline (h : c.trailing = .ok (span, c')) (inside : c.lineStart = false)
    (inline : span.endsLine = false) : c'.leading = .ok ([], c') := by
  fun_induction trailing c generalizing span c' with
  | case1 => cases h
  | case2 c piece =>
    obtain ⟨rfl, rfl⟩ : c.terminator.1 = span ∧ c.terminator.2 = c' := by rw [Except.ok.inj h]; simp
    rcases c.terminator_cases with ⟨nothing, unbroken⟩ | ⟨-, line, -⟩
    · rw [nothing]
      refine leading_of_stopped ?_
      unfold leadingPiece
      split
      · rfl
      · rename_i a rest ahead
        have ahead : c.rest = a :: rest := ahead
        simp [unbroken a (by simp [ahead]), inside, piece]
    · simp [line, Span.endsLine, Trivia.lineEnd, Trivia.isEndOfLine] at inline
  | case3 => cases h
  | case4 c t c₁ piece more c₂ found ih =>
    cases h
    obtain ⟨notEnd, -, -, inside₁⟩ := inlinePiece_lexed piece
    refine ih found (inside₁ inside) ?_
    cases more with
    | nil => rfl
    | cons b more => simpa [Span.endsLine] using inline

theorem trailing_whole (h : c.trailing = .ok (span, c'))
    (ends : span.getLast? = some (.lineEnd "\r")) : c'.rest.head? ≠ some '\n' := by
  fun_induction trailing c generalizing span c' with
  | case1 => cases h
  | case2 c piece =>
    obtain ⟨rfl, rfl⟩ : c.terminator.1 = span ∧ c.terminator.2 = c' := by rw [Except.ok.inj h]; simp
    rcases c.terminator_cases with ⟨nothing, -⟩ | ⟨-, line, rest⟩
    · simp [nothing] at ends
    · rw [line, List.getLast?_singleton, Option.some.injEq, Trivia.lineEnd, Trivia.lineEnd,
        Trivia.mk.injEq] at ends
      have text : (splitBreak c.rest).1 = ['\r'] := by
        simpa using congrArg String.toList ends.2
      exact rest ▸ splitBreak_whole text
  | case3 => cases h
  | case4 c t c₁ piece more c₂ found ih =>
    cases h
    obtain ⟨notEnd, -, -, -⟩ := inlinePiece_lexed piece
    cases more with
    | nil =>
      simp only [List.getLast?_singleton, Option.some.injEq] at ends
      rw [ends] at notEnd
      cases notEnd
    | cons b more => exact ih found (by simpa using ends)

end Cursor

structure Token.Lexed (t : Token) : Prop where
  leading : t.leading.LexedLeading
  trailing : t.trailing.LexedTrailing
  text : ∃ a, t.text.toList.head? = some a ∧ isVoid a = false

def TokenStream.front (tail : Span) : List Token → Span
  | [] => tail
  | t :: _ => t.leading

/-- Each trailing span is joined to what follows. -/
def TokenStream.Chained (tail : Span) : List Token → Prop
  | [] => True
  | t :: rest => t.trailing.Joint (front tail rest) ∧ Chained tail rest

structure TokenStream.Lexed (s : TokenStream) : Prop where
  tokens : ∀ t ∈ s.tokens, t.Lexed
  tail : s.tail.LexedLeading
  chained : Chained s.tail s.tokens

namespace Cursor

variable {rest : List Char} {l : Lexeme}

theorem lexeme_head (h : c.lexeme a rest = .ok (l, c')) : l.text.toList.head? = some a := by
  have text := congrArg String.toList (lexeme_text h)
  have shorter := lexeme_length h
  simp only [ahead, String.toList_append, String.toList_ofList] at text
  cases first : l.text.toList with
  | nil =>
    rw [first, List.nil_append] at text
    rw [text] at shorter
    omega
  | cons b more =>
    rw [first, List.cons_append, List.cons.injEq] at text
    rw [List.head?_cons, text.1]

/-- No word is written like one of the marks that shape declarations. -/
theorem lexeme_word (h : c.lexeme a rest = .ok (l, c')) (word : l.isWord) :
    l.text ∉ ["\x7b", "\x7d", ";", "]", "<"] := by
  have head := lexeme_head h
  have starts : a == '@' || isWordStart a := by
    unfold lexeme at h
    split at h
    · cases h
    · rename_i p found
      cases h
      unfold Piece.lexeme at found
      split at found
      · cases found
      · cases found
        cases word
      · cases found
        unfold Piece.plain at word
        grind [Lexeme.isWord]
  have marks : ∀ text ∈ ["\x7b", "\x7d", ";", "]", "<"],
      text.toList.head?.all fun a => !(a == '@' || isWordStart a) := by decide
  intro mem
  have mark := marks _ mem
  rw [head, Option.all_some, starts] at mark
  cases mark

theorem lexeme_inside (h : c.lexeme a rest = .ok (l, c')) : c'.lineStart = false := by
  unfold lexeme at h
  split at h <;> cases h
  rfl

theorem leading_stops (h : c.leading = .ok (span, c')) (ahead : c'.rest = a :: rest) :
    isVoid a = false := by
  fun_induction leading c generalizing span c' with
  | case1 => cases h
  | case2 c piece =>
    cases h
    unfold leadingPiece inlinePiece at piece
    simp only [ahead] at piece
    by_contra void
    simp only [isVoid, Bool.or_eq_false_iff, not_and_or, Bool.not_eq_false] at void
    by_cases breaks : isLineBreak a
    · simp [breaks] at piece
    · have space : isSpace a := void.resolve_right breaks
      by_cases hash : a = '#'
      · rw [hash] at space
        exact absurd space (by decide)
      · simp [breaks, hash, space] at piece
  | case3 => cases h
  | case4 c s c₁ piece more c₂ found ih =>
    cases h
    exact ih found ahead

theorem tokens_lexed {s : TokenStream} (h : c.tokens = .ok s) :
    s.Lexed ∧ ∃ c', c.leading = .ok (TokenStream.front s.tail s.tokens, c') := by
  fun_induction Cursor.tokens c generalizing s with
  | case1 => cases h
  | case2 c leading c₁ lead ended =>
    cases h
    exact ⟨⟨by simp, leading_lexed lead, trivial⟩, c₁, lead⟩
  | case3 => cases h
  | case4 => cases h
  | case5 => cases h
  | case6 => cases h
  | case7 c leading c₁ lead a rest ahead₁ l c₂ found trailing c₃ trail s' more ih =>
    cases h
    obtain ⟨lexed, c₄, next⟩ := ih more
    refine ⟨⟨List.forall_mem_cons.mpr ⟨⟨leading_lexed lead, trailing_lexed trail, a,
      lexeme_head found, leading_stops lead ahead₁⟩, lexed.tokens⟩, lexed.tail, ⟨?_, ?_⟩, lexed.chained⟩, c₁, lead⟩
    · intro inline
      have nothing := leading_of_trailing_inline trail (lexeme_inside found) inline
      rw [next] at nothing
      exact (Prod.mk.inj (Except.ok.inj nothing)).1
    · intro ends lineFeed
      refine trailing_whole trail ends ?_
      rw [leading_rest next, List.head?_append, lineFeed]
      rfl

end Cursor

theorem tokenize_lexed {text : List Char} {symbols : List String} {s : TokenStream}
    (h : tokenize text symbols = .ok s) : s.Lexed :=
  (Cursor.tokens_lexed h).1

end CSharpTidy
