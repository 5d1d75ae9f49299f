import CSharpTidy.Token.Lexeme

/- From text to tokens. The cursor knows the input that is left, where it stands, and the state
   of conditional compilation; every character it passes goes into the text of one token or one
   piece of trivia. -/
namespace CSharpTidy

/-- `lineStart` says that only white space was passed since the last line break, and `opened`
holds the positions of the open conditionals, innermost first. -/
structure Cursor where
  rest : List Char
  position : Position
  lineStart : Bool
  conditional : Conditional
  opened : List Position

namespace Cursor

def ofText (text : List Char) (symbols : List String) : Cursor :=
  ⟨text, .start, true, .ofSymbols symbols, []⟩

def move (c : Cursor) (text rest : List Char) : Cursor :=
  { c with rest := rest, position := c.position.advance text rest }

def unterminated (c : Cursor) (u : Unterminated) : ParseError :=
  .unterminated u.what (c.position.advance (textBefore c.rest u.opened) u.opened)

def terminator (c : Cursor) : Span × Cursor :=
  match c.rest with
  | [] => ([], c)
  | b :: rest =>
      if isLineBreak b then
        let split := splitBreak (b :: rest)
        ([⟨.endOfLine, String.ofList split.1⟩],
          { c.move split.1 split.2 with lineStart := true })
      else ([], c)

def inlinePiece (c : Cursor) : Except ParseError (Option (Trivia × Cursor)) :=
  match c.rest with
  | [] => .ok none
  | a :: rest =>
      if isSpace a then
        let text := a :: rest.takeWhile isSpace
        .ok (some (⟨.whitespace, String.ofList text⟩, c.move text (rest.dropWhile isSpace)))
      else
        match Piece.comment? (a :: rest) with
        | .error u => .error (c.unterminated u)
        | .ok none => .ok none
        | .ok (some p) =>
            .ok (some (⟨p.kind, String.ofList p.text⟩,
              { c.move p.text p.rest with lineStart := false }))

/-- The rest of a directive's line and the dead branch behind it. -/
def deadBranch (c : Cursor) : Span × Cursor :=
  let lineEnd := c.terminator
  let rest := Piece.afterDisabled lineEnd.2.rest
  let text := textBefore lineEnd.2.rest rest
  let dead : Span := if text.isEmpty then [] else [⟨.disabled, String.ofList text⟩]
  (lineEnd.1 ++ dead, { lineEnd.2.move text rest with lineStart := true })

def openedAfter (c : Cursor) : DirectiveKind → List Position
  | .ifTest => c.position :: c.opened
  | .endIf => c.opened.tail
  | _ => c.opened

def directive (c : Cursor) : Except ParseError (Span × Cursor) :=
  let text := c.rest.takeWhile fun a => !isLineBreak a
  let kind := DirectiveLine.kind text
  match c.conditional.apply kind text with
  | .error cause => .error (.directive cause c.position)
  | .ok conditional =>
      let passed := { c.move text (Literal.afterLine c.rest) with
        lineStart := false, conditional := conditional, opened := c.openedAfter kind }
      let line : Trivia := ⟨.directive kind, String.ofList text⟩
      if conditional.isActive then .ok ([line], passed)
      else
        let dead := passed.deadBranch
        .ok (line :: dead.1, dead.2)

def leadingPiece (c : Cursor) : Except ParseError (Option (Span × Cursor)) :=
  match c.rest with
  | [] => .ok none
  | a :: _ =>
      if isLineBreak a then .ok (some c.terminator)
      else if a == '#' && c.lineStart then
        match c.directive with
        | .error e => .error e
        | .ok r => .ok (some r)
      else
        match c.inlinePiece with
        | .error e => .error e
        | .ok none => .ok none
        | .ok (some (t, c')) => .ok (some ([t], c'))

theorem terminator_length_le (c : Cursor) : c.terminator.2.rest.length ≤ c.rest.length := by
  unfold terminator
  split
  · exact Nat.le_refl _
  · rename_i b rest eq
    split
    · rw [eq]
      exact Nat.le_of_lt (splitBreak_rest_length b rest)
    · exact Nat.le_refl _

theorem terminator_length {c : Cursor} {b : Char} {rest : List Char} (eq : c.rest = b :: rest)
    (breaks : isLineBreak b) : c.terminator.2.rest.length < c.rest.length := by
  unfold terminator
  rw [eq]
  simp only [breaks, if_true]
  exact splitBreak_rest_length b rest

theorem inlinePiece_length {c c' : Cursor} {t : Trivia} (h : c.inlinePiece = .ok (some (t, c'))) :
    c'.rest.length < c.rest.length := by
  unfold inlinePiece at h
  split at h
  · cases h
  · rename_i a rest eq
    rw [eq]
    split at h
    · cases h
      exact Nat.lt_succ_of_le (List.dropWhile_suffix _).length_le
    · split at h
      · cases h
      · cases h
      · rename_i found
        cases h
        exact Piece.comment?_length found

theorem deadBranch_length_le (c : Cursor) : c.deadBranch.2.rest.length ≤ c.rest.length :=
  Nat.le_trans (Piece.afterDisabled_length_le _) c.terminator_length_le

theorem directive_length {c c' : Cursor} {span : Span} {rest : List Char}
    (eq : c.rest = '#' :: rest) (h : c.directive = .ok (span, c')) :
    c'.rest.length < c.rest.length := by
  have line : (Literal.afterLine c.rest).length < c.rest.length := by
    rw [eq]
    exact Nat.lt_succ_of_le (Literal.afterLine_length_le rest)
  simp only [directive] at h
  split at h
  · cases h
  · split at h
    · cases h
      exact line
    · cases h
      exact Nat.lt_of_le_of_lt (deadBranch_length_le _) line

theorem leadingPiece_length {c c' : Cursor} {span : Span}
    (h : c.leadingPiece = .ok (some (span, c'))) : c'.rest.length < c.rest.length := by
  unfold leadingPiece at h
  split at h
  · cases h
  · rename_i a rest eq
    split at h
    · rename_i breaks
      have := terminator_length eq breaks
      rwa [Option.some.inj (Except.ok.inj h)] at this
    · split at h
      · rename_i hash
        split at h
        · cases h
        · rename_i r found
          cases h
          simp only [Bool.and_eq_true, beq_iff_eq] at hash
          exact directive_length (hash.1 ▸ eq) found
      · split at h
        · cases h
        · cases h
        · rename_i found
          cases h
          exact inlinePiece_length found

def leading (c : Cursor) : Except ParseError (Span × Cursor) :=
  match _piece : c.leadingPiece with
  | .error e => .error e
  | .ok none => .ok ([], c)
  | .ok (some (span, c')) =>
      match c'.leading with
      | .error e => .error e
      | .ok (more, c'') => .ok (span ++ more, c'')
termination_by c.rest.length
decreasing_by exact leadingPiece_length _piece

/-- Trailing trivia end with the first line break. -/
def trailing (c : Cursor) : Except ParseError (Span × Cursor) :=
  match _piece : c.inlinePiece with
  | .error e => .error e
  | .ok none => .ok c.terminator
  | .ok (some (t, c')) =>
      match c'.trailing with
      | .error e => .error e
      | .ok (more, c'') => .ok (t :: more, c'')
termination_by c.rest.length
decreasing_by exact inlinePiece_length _piece

theorem leading_length_le {c c' : Cursor} {span : Span} (h : c.leading = .ok (span, c')) :
    c'.rest.length ≤ c.rest.length := by
  fun_induction leading c generalizing span c' with
  | case1 => cases h
  | case2 => cases h; exact Nat.le_refl _
  | case3 => cases h
  | case4 c s c₁ piece more c₂ _ ih =>
    cases h
    exact Nat.le_of_lt (Nat.lt_of_le_of_lt (ih ‹_›) (leadingPiece_length piece))

theorem trailing_length_le {c c' : Cursor} {span : Span} (h : c.trailing = .ok (span, c')) :
    c'.rest.length ≤ c.rest.length := by
  fun_induction trailing c generalizing span c' with
  | case1 => cases h
  | case2 c _ =>
    have := c.terminator_length_le
    rwa [Except.ok.inj h] at this
  | case3 => cases h
  | case4 c t c₁ piece more c₂ _ ih =>
    cases h
    exact Nat.le_of_lt (Nat.lt_of_le_of_lt (ih ‹_›) (inlinePiece_length piece))

def lexeme (c : Cursor) (a : Char) (rest : List Char) : Except ParseError (Lexeme × Cursor) :=
  match Piece.lexeme a rest with
  | .error u => .error (c.unterminated u)
  | .ok p =>
      .ok (⟨p.kind, String.ofList p.text⟩, { c.move p.text p.rest with lineStart := false })

theorem lexeme_length {c c' : Cursor} {a : Char} {rest : List Char} {l : Lexeme}
    (h : c.lexeme a rest = .ok (l, c')) : c'.rest.length < (a :: rest).length := by
  unfold lexeme at h
  split at h
  · cases h
  · rename_i found
    cases h
    exact Piece.lexeme_length found

def tokens (c : Cursor) : Except ParseError TokenStream :=
  match _lead : c.leading with
  | .error e => .error e
  | .ok (leading, c₁) =>
      match _rest : c₁.rest with
      | [] =>
          match c₁.opened with
          | [] => .ok ⟨[], leading, c₁.position⟩
          | p :: _ => .error (.directive .ifWithoutEndIf p)
      | a :: rest =>
          match _lexeme : c₁.lexeme a rest with
          | .error e => .error e
          | .ok (l, c₂) =>
              match _trail : c₂.trailing with
              | .error e => .error e
              | .ok (trailing, c₃) =>
                  match c₃.tokens with
                  | .error e => .error e
                  | .ok s =>
                      .ok { s with tokens := ⟨l, leading, trailing, c₁.position⟩ :: s.tokens }
termination_by c.rest.length
decreasing_by
  have h₁ := leading_length_le _lead
  have h₂ := lexeme_length _lexeme
  have h₃ := trailing_length_le _trail
  rw [_rest] at h₁
  omega

end Cursor

/-- The tokens of a text, with `symbols` defined for conditional compilation. -/
def tokenize (text : List Char) (symbols : List String) : Except ParseError TokenStream :=
  (Cursor.ofText text symbols).tokens

end CSharpTidy
