import CSharpTidy.Text.Blank
import CSharpTidy.Text.Letter
import CSharpTidy.Text.Numeral
import CSharpTidy.Token.Basic
import CSharpTidy.Token.Literal

/- The single pieces at the front of an input: one comment, one dead branch, one lexeme. Each is
   given as its text and the rest of the input. -/
namespace CSharpTidy

def isSpace (c : Char) : Bool :=
  (Text.isBlank c && !isLineBreak c) || c == '\ufeff'

def isWordStart (c : Char) : Bool :=
  Text.isLetter c || c == '_'

def isWordPart (c : Char) : Bool :=
  Text.isLetter c || Text.isNumeral c || c == '_'

structure Piece (κ : Type) where
  kind : κ
  text : List Char
  rest : List Char

namespace Piece

/-- Three slashes document what follows, four do not. -/
def lineCommentKind : List Char → TriviaKind
  | '/' :: '/' :: '/' :: '/' :: _ => .lineComment
  | '/' :: '/' :: '/' :: _ => .docComment
  | _ => .lineComment

def comment? (s : List Char) : Except Unterminated (Option (Piece TriviaKind)) :=
  match s with
  | '/' :: '/' :: rest =>
      let text := '/' :: '/' :: rest.takeWhile fun c => !isLineBreak c
      .ok (some ⟨lineCommentKind text, text, Literal.afterLine rest⟩)
  | '/' :: '*' :: rest =>
      match Literal.afterBlockComment rest with
      | none => .error ⟨.comment, s⟩
      | some rest' => .ok (some ⟨.blockComment, textBefore s rest', rest'⟩)
  | _ => .ok none

theorem comment?_length {s : List Char} {p : Piece TriviaKind} (h : comment? s = .ok (some p)) :
    p.rest.length < s.length := by
  unfold comment? at h
  split at h
  · cases h
    exact Nat.lt_succ_of_lt (Nat.lt_succ_of_le (Literal.afterLine_length_le _))
  · split at h
    · cases h
    · rename_i ended
      cases h
      exact Nat.lt_succ_of_lt (Nat.lt_succ_of_lt (Literal.afterBlockComment_length ended))
  · cases h

def atConditional (s : List Char) : Bool :=
  match DirectiveLine.kind? (Text.trimStart (s.takeWhile fun c => !isLineBreak c)) with
  | some kind => kind.isConditional
  | none => false

/-- The input after a dead branch: whole lines are dropped up to a conditional directive. -/
def afterDisabled (s : List Char) : List Char :=
  match s with
  | [] => []
  | c :: rest =>
      if atConditional (c :: rest) then c :: rest
      else
        match _break : Literal.afterLine (c :: rest) with
        | [] => []
        | b :: rest' => afterDisabled (splitBreak (b :: rest')).2
termination_by s.length
decreasing_by
  have := splitBreak_rest_length b rest'
  have := Literal.afterLine_length_le (c :: rest)
  rw [_break] at this
  omega

theorem afterDisabled_length_le (s : List Char) : (afterDisabled s).length ≤ s.length := by
  fun_induction afterDisabled s with
  | case1 => exact Nat.le_refl _
  | case2 => exact Nat.le_refl _
  | case3 => exact Nat.zero_le _
  | case4 c rest _ b rest' ended ih =>
    have := splitBreak_rest_length b rest'
    have := Literal.afterLine_length_le (c :: rest)
    rw [ended] at this
    omega

/-- Digits, letters and underscores, a point before a digit, and a sign after an exponent mark
unless the number is hexadecimal. -/
def numberContinues (hex : Bool) (previous c : Char) (next : Option Char) : Bool :=
  c.isAlphanum || c == '_' || (c == '.' && next.any Char.isDigit) ||
    ((c == '+' || c == '-') && !hex && (previous == 'e' || previous == 'E'))

def splitNumber (hex : Bool) (previous : Char) : List Char → List Char × List Char
  | [] => ([], [])
  | c :: rest =>
      if numberContinues hex previous c rest.head? then
        let (text, rest') := splitNumber hex c rest
        (c :: text, rest')
      else ([], c :: rest)

theorem splitNumber_length_le (hex : Bool) (previous : Char) (s : List Char) :
    (splitNumber hex previous s).2.length ≤ s.length := by
  induction s generalizing previous with
  | nil => exact Nat.le_refl _
  | cons c rest ih =>
    unfold splitNumber
    split
    · exact Nat.le_succ_of_le (ih c)
    · exact Nat.le_refl _

def isHex : List Char → Bool
  | '0' :: 'x' :: _ => true
  | '0' :: 'X' :: _ => true
  | _ => false

/-- Operators of more than one character, longest first. Two closing angle brackets are two
lexemes, so that nested type arguments close one at a time. -/
def operators : List String :=
  ["<<=", "??=", "=>", "==", "!=", "<=", ">=", "&&", "||", "++", "--", "+=", "-=", "*=", "/=",
   "%=", "&=", "|=", "^=", "->", "::", "??", "<<", ".."]

def punctLength (s : List Char) : Nat :=
  match operators.find? fun op => op.toList.isPrefixOf s with
  | some op => op.length
  | none => 1

theorem punctLength_pos (s : List Char) : 0 < punctLength s := by
  have positive : ∀ op ∈ operators, 0 < op.length := by decide
  unfold punctLength
  split
  · rename_i found
    exact positive _ (List.mem_of_find?_eq_some found)
  · exact Nat.one_pos

def plain (c : Char) (rest : List Char) : Piece LexemeKind :=
  if c == '@' && rest.head?.any isWordStart || isWordStart c then
    ⟨.word, c :: rest.takeWhile isWordPart, rest.dropWhile isWordPart⟩
  else if c.isDigit || (c == '.' && rest.head?.any Char.isDigit) then
    let (text, rest') := splitNumber (isHex (c :: rest)) c rest
    ⟨.number, c :: text, rest'⟩
  else
    let n := punctLength (c :: rest)
    ⟨.punct, (c :: rest).take n, (c :: rest).drop n⟩

theorem plain_length (c : Char) (rest : List Char) :
    (plain c rest).rest.length < (c :: rest).length := by
  unfold plain
  split
  · exact Nat.lt_succ_of_le (List.dropWhile_suffix _).length_le
  · split
    · exact Nat.lt_succ_of_le (splitNumber_length_le _ _ _)
    · have := punctLength_pos (c :: rest)
      simp only [List.length_drop, List.length_cons]
      omega

def lexeme (c : Char) (rest : List Char) : Except Unterminated (Piece LexemeKind) :=
  match Literal.after (c :: rest) with
  | .error e => .error e
  | .ok (some rest') => .ok ⟨.literal, textBefore (c :: rest) rest', rest'⟩
  | .ok none => .ok (plain c rest)

theorem lexeme_length {c : Char} {rest : List Char} {p : Piece LexemeKind}
    (h : lexeme c rest = .ok p) : p.rest.length < (c :: rest).length := by
  unfold lexeme at h
  split at h
  · cases h
  · rename_i ended
    cases h
    exact Literal.after_length ended
  · cases h
    exact plain_length c rest

end Piece

end CSharpTidy
