import CSharpTidy.Conditional.DirectiveLine

/- Conditions of conditional compilation: alternatives of conjunctions of comparisons of negated
   symbols, constants and parenthesised conditions. -/
namespace CSharpTidy

inductive ConditionError where
  | missing
  | invalid (text : String)
  | unexpected (token : String)
  | incomplete
  | unclosed
  deriving DecidableEq, Repr

def ConditionError.message : ConditionError → String
  | .missing => "missing condition"
  | .invalid text => s!"invalid condition `{text}`"
  | .unexpected token => s!"unexpected `{token}` in condition"
  | .incomplete => "incomplete condition"
  | .unclosed => "expected `)` in condition"

inductive Condition where
  | constant (value : Bool)
  | defined (symbol : String)
  | not (operand : Condition)
  | equal (left right : Condition)
  | differ (left right : Condition)
  | and (left right : Condition)
  | or (left right : Condition)
  deriving DecidableEq, Repr

namespace Condition

def eval (symbols : List String) : Condition → Bool
  | .constant value => value
  | .defined symbol => symbols.contains symbol
  | .not operand => !operand.eval symbols
  | .equal left right => left.eval symbols == right.eval symbols
  | .differ left right => left.eval symbols != right.eval symbols
  | .and left right => left.eval symbols && right.eval symbols
  | .or left right => left.eval symbols || right.eval symbols

inductive Word where
  | bars | ampersands | equals | bangEquals | bang | openParen | closeParen
  | name (text : String)
  deriving DecidableEq, Repr

def Word.text : Word → String
  | .bars => "||"
  | .ampersands => "&&"
  | .equals => "=="
  | .bangEquals => "!="
  | .bang => "!"
  | .openParen => "("
  | .closeParen => ")"
  | .name text => text

def nextWord? : List Char → Option (Word × List Char)
  | '|' :: '|' :: rest => some (.bars, rest)
  | '&' :: '&' :: rest => some (.ampersands, rest)
  | '=' :: '=' :: rest => some (.equals, rest)
  | '!' :: '=' :: rest => some (.bangEquals, rest)
  | '!' :: rest => some (.bang, rest)
  | '(' :: rest => some (.openParen, rest)
  | ')' :: rest => some (.closeParen, rest)
  | c :: rest =>
      if isSymbolStart c then
        some (.name (String.ofList (c :: rest.takeWhile isSymbolPart)),
          rest.dropWhile isSymbolPart)
      else none
  | [] => none

theorem nextWord?_rest_length {s rest : List Char} {w : Word}
    (h : nextWord? s = some (w, rest)) : rest.length < s.length := by
  have drop (c : Char) (t : List Char) : (t.dropWhile isSymbolPart).length < (c :: t).length :=
    Nat.lt_succ_of_le (List.dropWhile_suffix _).length_le
  fun_cases nextWord? s <;> simp_all [nextWord?] <;> grind

/-- The words of a condition, or none when some text in it is no word. -/
def words (s : List Char) : Option (List Word) :=
  match _trimmed : Text.trimStart s with
  | [] => some []
  | c :: t =>
      match _word : nextWord? (c :: t) with
      | none => none
      | some (w, rest) => (words rest).map (w :: ·)
termination_by s.length
decreasing_by
  have := nextWord?_rest_length _word
  have := Text.trimStart_length_le s
  rw [_trimmed] at this
  omega

inductive Level where
  | or | and | equality | unary
  deriving DecidableEq, Repr

def Level.rank : Level → Nat
  | .or => 3
  | .and => 2
  | .equality => 1
  | .unary => 0

def Level.tighter : Level → Level
  | .or => .and
  | .and => .equality
  | .equality | .unary => .unary

theorem Level.tighter_rank (level : Level) (h : level ≠ .unary) :
    level.tighter.rank < level.rank := by
  cases level <;> simp_all [tighter, rank]

theorem Level.tighter_rank_le (level : Level) : level.tighter.rank ≤ level.rank := by
  cases level <;> decide

def Level.operator? : Level → Word → Option (Condition → Condition → Condition)
  | .or, .bars => some .or
  | .and, .ampersands => some .and
  | .equality, .equals => some .equal
  | .equality, .bangEquals => some .differ
  | _, _ => none

def primary : Word → Except ConditionError Condition
  | .name "true" => .ok (.constant true)
  | .name "false" => .ok (.constant false)
  | .name symbol => .ok (.defined symbol)
  | w => .error (.unexpected w.text)

mutual

def parseAt (level : Level) (ws : List Word) :
    Except ConditionError { r : Condition × List Word // r.2.length < ws.length } :=
  if _unary : level = .unary then
    match ws with
    | [] => .error .incomplete
    | .bang :: rest =>
        match parseAt .unary rest with
        | .error e => .error e
        | .ok ⟨(operand, rest'), h⟩ => .ok ⟨(.not operand, rest'), Nat.lt_succ_of_lt h⟩
    | .openParen :: rest =>
        match parseAt .or rest with
        | .error e => .error e
        | .ok ⟨(inner, .closeParen :: rest'), h⟩ =>
            .ok ⟨(inner, rest'), by simp only [List.length_cons] at h ⊢; omega⟩
        | .ok _ => .error .unclosed
    | w :: rest => (primary w).map fun c => ⟨(c, rest), Nat.lt_succ_self _⟩
  else
    match parseAt level.tighter ws with
    | .error e => .error e
    | .ok ⟨(left, rest), h⟩ =>
        match parseChain level left rest with
        | .error e => .error e
        | .ok ⟨r, h'⟩ => .ok ⟨r, Nat.lt_of_le_of_lt h' h⟩
termination_by 4 * ws.length + level.rank
decreasing_by
  · simp only [Level.rank, List.length_cons]
    omega
  · simp only [Level.rank, List.length_cons]
    omega
  · have := level.tighter_rank _unary
    omega
  · have : rest.length < ws.length := h
    omega

/-- Extends `left` by the operators of a level, grouping to the left. -/
def parseChain (level : Level) (left : Condition) (ws : List Word) :
    Except ConditionError { r : Condition × List Word // r.2.length ≤ ws.length } :=
  match ws with
  | [] => .ok ⟨(left, []), Nat.le_refl _⟩
  | w :: rest =>
      match level.operator? w with
      | none => .ok ⟨(left, w :: rest), Nat.le_refl _⟩
      | some op =>
          match parseAt level.tighter rest with
          | .error e => .error e
          | .ok ⟨(right, rest'), h⟩ =>
              match parseChain level (op left right) rest' with
              | .error e => .error e
              | .ok ⟨r, h'⟩ => .ok ⟨r, by simp only [List.length_cons] at *; omega⟩
termination_by 4 * ws.length + level.rank
decreasing_by
  · have := level.tighter_rank_le
    simp only [List.length_cons]
    omega
  · have : rest'.length < rest.length := h
    simp only [List.length_cons]
    omega

end

def ofWords (ws : List Word) : Except ConditionError Condition :=
  match ws with
  | [] => .error .missing
  | ws =>
      match parseAt .or ws with
      | .error e => .error e
      | .ok ⟨(c, []), _⟩ => .ok c
      | .ok ⟨(_, w :: _), _⟩ => .error (.unexpected w.text)

def parse (expr : List Char) : Except ConditionError Condition :=
  match words expr with
  | none => .error (.invalid (String.ofList (Text.trim expr)))
  | some ws => ofWords ws

def evaluate (symbols : List String) (expr : List Char) : Except ConditionError Bool :=
  (parse expr).map (eval symbols)

end Condition

end CSharpTidy
