import CSharpTidy.Toml.Scalar

/- TOML strings, blanks and comments. -/
namespace CSharpTidy.Toml

def isWs (c : Char) : Bool :=
  c == ' ' || c == '\t'

def skipWs (s : List Char) : List Char :=
  s.dropWhile isWs

def isPlain (c : Char) : Bool :=
  c == '\t' || (' ' ≤ c && c != '\x7f')

def newline? : List Char → Option (List Char)
  | '\n' :: rest => some rest
  | '\r' :: '\n' :: rest => some rest
  | _ => none

def afterComment : List Char → List Char
  | '#' :: rest => rest.dropWhile isPlain
  | s => s

def lineEnd? (s : List Char) : Option (List Char) :=
  match afterComment (skipWs s) with
  | [] => some []
  | rest => newline? rest

def codePoint? (digits : List Char) : Option Char :=
  let n := valueOf 16 digits
  if digits.all isHexDigit && n.isValidChar then some (Char.ofNat n) else none

def escape? : Char → Option Char
  | 'b' => some '\x08'
  | 't' => some '\t'
  | 'n' => some '\n'
  | 'f' => some '\x0c'
  | 'r' => some '\r'
  | '"' => some '"'
  | '\\' => some '\\'
  | _ => none

abbrev Reading := Option (List Char × List Char)

def Reading.push (c : Char) (r : Reading) : Reading :=
  r.map fun read => (c :: read.1, read.2)

def escapeSequence? : List Char → Option (Char × List Char)
  | 'u' :: a :: b :: c :: d :: rest => (codePoint? [a, b, c, d]).map (·, rest)
  | 'U' :: a :: b :: c :: d :: e :: f :: g :: h :: rest =>
      (codePoint? [a, b, c, d, e, f, g, h]).map (·, rest)
  | c :: rest => (escape? c).map (·, rest)
  | [] => none

theorem escapeSequence?_length {s rest : List Char} {c : Char}
    (h : escapeSequence? s = some (c, rest)) : rest.length < s.length := by
  unfold escapeSequence? at h
  split at h
  · obtain ⟨_, _, eq⟩ := Option.map_eq_some_iff.1 h
    cases eq
    simp only [List.length_cons]
    omega
  · obtain ⟨_, _, eq⟩ := Option.map_eq_some_iff.1 h
    cases eq
    simp only [List.length_cons]
    omega
  · obtain ⟨_, _, eq⟩ := Option.map_eq_some_iff.1 h
    cases eq
    exact Nat.lt_succ_self _
  · cases h

def quoted (s : List Char) : Reading :=
  match s with
  | [] => none
  | '"' :: rest => some ([], rest)
  | '\\' :: rest =>
      match _escape : escapeSequence? rest with
      | none => none
      | some (c, rest') => (quoted rest').push c
  | c :: rest => if isPlain c then (quoted rest).push c else none
termination_by s.length
decreasing_by
  · exact Nat.lt_succ_of_lt (escapeSequence?_length _escape)
  · exact Nat.lt_succ_self _

def literal : List Char → Reading
  | [] => none
  | '\'' :: rest => some ([], rest)
  | c :: rest => if isPlain c then (literal rest).push c else none

/-- The input behind a backslash that joins lines: the end of its line and all blanks after
it. -/
def afterJoin? (s : List Char) : Option (List Char) :=
  (newline? (skipWs s)).map (·.dropWhile fun c => isWs c || c == '\n' || c == '\r')

/-- Every carriage return among the blanks that a joined line skips has a line feed behind it. -/
def joinIsClean : List Char → Bool
  | '\r' :: '\n' :: rest => joinIsClean rest
  | '\r' :: _ => false
  | c :: rest => if isWs c || c == '\n' then joinIsClean rest else true
  | [] => true

theorem newline?_length {s rest : List Char} (h : newline? s = some rest) :
    rest.length < s.length := by
  unfold newline? at h
  split at h
  · cases h; exact Nat.lt_succ_self _
  · cases h; exact Nat.lt_succ_of_lt (Nat.lt_succ_self _)
  · cases h

theorem afterJoin?_length_le {s rest : List Char} (h : afterJoin? s = some rest) :
    rest.length ≤ s.length := by
  obtain ⟨t, ht, rfl⟩ := Option.map_eq_some_iff.1 h
  have := newline?_length ht
  have := (List.dropWhile_suffix (l := s) isWs).length_le
  have := (List.dropWhile_suffix (l := t) fun c => isWs c || c == '\n' || c == '\r').length_le
  simp only [skipWs] at *
  omega

/-- The text of a string in three quotes. Up to two quotes may stand before the closing ones. -/
def multiQuoted (s : List Char) : Reading :=
  match s with
  | [] => none
  | '"' :: '"' :: '"' :: '"' :: '"' :: rest => some (['"', '"'], rest)
  | '"' :: '"' :: '"' :: '"' :: rest => some (['"'], rest)
  | '"' :: '"' :: '"' :: rest => some ([], rest)
  | '\\' :: rest =>
      match _join : afterJoin? rest with
      | some rest' => if joinIsClean (skipWs rest) then multiQuoted rest' else none
      | none =>
          match _escape : escapeSequence? rest with
          | none => none
          | some (c, rest') => (multiQuoted rest').push c
  | '\r' :: '\n' :: rest => (multiQuoted rest).push '\n'
  | c :: rest => if isPlain c || c == '\n' then (multiQuoted rest).push c else none
termination_by s.length
decreasing_by
  · exact Nat.lt_succ_of_le (afterJoin?_length_le _join)
  · exact Nat.lt_succ_of_lt (escapeSequence?_length _escape)
  · exact Nat.lt_succ_of_lt (Nat.lt_succ_self _)
  · exact Nat.lt_succ_self _

def multiLiteral : List Char → Reading
  | [] => none
  | '\'' :: '\'' :: '\'' :: '\'' :: '\'' :: rest => some (['\'', '\''], rest)
  | '\'' :: '\'' :: '\'' :: '\'' :: rest => some (['\''], rest)
  | '\'' :: '\'' :: '\'' :: rest => some ([], rest)
  | '\r' :: '\n' :: rest => (multiLiteral rest).push '\n'
  | c :: rest => if isPlain c || c == '\n' then (multiLiteral rest).push c else none

/-- A line break right behind the opening of a string over several lines is not part of it. -/
def afterFirstBreak (s : List Char) : List Char :=
  (newline? s).getD s

def string? : List Char → Reading
  | '"' :: '"' :: '"' :: rest => multiQuoted (afterFirstBreak rest)
  | '"' :: rest => quoted rest
  | '\'' :: '\'' :: '\'' :: rest => multiLiteral (afterFirstBreak rest)
  | '\'' :: rest => literal rest
  | _ => none

end CSharpTidy.Toml
