/- TOML numbers, booleans and dates. A reader gives the input behind what it read. -/
namespace CSharpTidy.Toml

def isHexDigit (c : Char) : Bool :=
  c.isDigit || ('a' ≤ c && c ≤ 'f') || ('A' ≤ c && c ≤ 'F')

def hexValue (c : Char) : Nat :=
  if c.isDigit then c.toNat - '0'.toNat
  else if 'a' ≤ c then c.toNat - 'a'.toNat + 10
  else c.toNat - 'A'.toNat + 10

def valueOf (base : Nat) (digits : List Char) : Nat :=
  digits.foldl (fun n c => n * base + hexValue c) 0

/-- Digits behind a first one; single underscores may stand between digits. -/
def moreDigits (isDigit : Char → Bool) : List Char → List Char × List Char
  | '_' :: c :: rest =>
      if isDigit c then
        let more := moreDigits isDigit rest
        (c :: more.1, more.2)
      else ([], '_' :: c :: rest)
  | c :: rest =>
      if isDigit c then
        let more := moreDigits isDigit rest
        (c :: more.1, more.2)
      else ([], c :: rest)
  | [] => ([], [])

def digits? (isDigit : Char → Bool) : List Char → Option (List Char × List Char)
  | [] => none
  | c :: rest =>
      if isDigit c then
        let more := moreDigits isDigit rest
        some (c :: more.1, more.2)
      else none

def decimal? : List Char → Option (List Char × List Char)
  | '0' :: rest => some (['0'], rest)
  | s => digits? Char.isDigit s

def stripSign : List Char → Bool × List Char
  | '-' :: rest => (true, rest)
  | '+' :: rest => (false, rest)
  | s => (false, s)

def integerFits (negative : Bool) (n : Nat) : Bool :=
  if negative then n ≤ Nat.pow 2 63 else n < Nat.pow 2 63

/-- The least integer that rounds to infinity as a binary floating point number of 64 bits. -/
def overflowBound : Nat := Nat.pow 2 1024 - Nat.pow 2 970

/-- Whether the digits with a point before the last `places` of them, times a power of ten, are
too large for a number. -/
def overflows (digits : List Char) (places : Nat) (negativeExponent : Bool) (exponent : Nat) :
    Bool :=
  let n := valueOf 10 digits
  if n == 0 then false
  else if negativeExponent then
    digits.length > exponent + places + 308 && overflowBound * Nat.pow 10 (exponent + places) ≤ n
  else if exponent > places + 400 then true
  else overflowBound * Nat.pow 10 places ≤ n * Nat.pow 10 exponent

/-- The fraction here: none when there is no point, and a failure when no digit follows it. -/
def fraction? : List Char → Option (List Char × List Char)
  | '.' :: rest => digits? Char.isDigit rest
  | s => some ([], s)

def exponent? (s : List Char) : Option (Bool × List Char × List Char) :=
  match s with
  | c :: rest =>
      if c == 'e' || c == 'E' then
        let signed := stripSign rest
        (digits? Char.isDigit signed.2).map fun r => (signed.1, r.1, r.2)
      else some (false, [], s)
  | [] => some (false, [], [])

def decimalNumber? (s : List Char) : Option (List Char) :=
  let signed := stripSign s
  match decimal? signed.2 with
  | none => none
  | some (whole, rest) =>
      match fraction? rest with
      | none => none
      | some (fraction, rest) =>
          match exponent? rest with
          | none => none
          | some (negative, exponent, rest) =>
              if fraction.isEmpty && exponent.isEmpty then
                if integerFits signed.1 (valueOf 10 whole) then some rest else none
              else if !signed.1 &&
                  overflows (whole ++ fraction) fraction.length negative (valueOf 10 exponent) then
                none
              else some rest

def radixNumber? (base : Nat) (isDigit : Char → Bool) (s : List Char) : Option (List Char) :=
  match digits? isDigit s with
  | none => none
  | some (digits, rest) => if integerFits false (valueOf base digits) then some rest else none

def number? (s : List Char) : Option (List Char) :=
  match s with
  | '0' :: 'x' :: rest => radixNumber? 16 isHexDigit rest
  | '0' :: 'o' :: rest => radixNumber? 8 (fun c => '0' ≤ c && c ≤ '7') rest
  | '0' :: 'b' :: rest => radixNumber? 2 (fun c => c == '0' || c == '1') rest
  | _ =>
      match (stripSign s).2 with
      | 'i' :: 'n' :: 'f' :: rest => some rest
      | 'n' :: 'a' :: 'n' :: rest => some rest
      | _ => decimalNumber? s

def inRange (low high : Nat) (digits : List Char) : Bool :=
  digits.all Char.isDigit && low ≤ valueOf 10 digits && valueOf 10 digits ≤ high

def isLeap (year : Nat) : Bool :=
  year % 4 == 0 && (year % 100 != 0 || year % 400 == 0)

def daysIn (year month : Nat) : Nat :=
  if month == 2 then (if isLeap year then 29 else 28)
  else if [4, 6, 9, 11].contains month then 30
  else 31

def date? : List Char → Option (List Char)
  | y₁ :: y₂ :: y₃ :: y₄ :: '-' :: m₁ :: m₂ :: '-' :: d₁ :: d₂ :: rest =>
      let year := [y₁, y₂, y₃, y₄]
      let month := [m₁, m₂]
      if year.all Char.isDigit && inRange 1 12 month &&
          inRange 1 (daysIn (valueOf 10 year) (valueOf 10 month)) [d₁, d₂] then
        some rest
      else none
  | _ => none

def time? : List Char → Option (List Char)
  | h₁ :: h₂ :: ':' :: m₁ :: m₂ :: ':' :: s₁ :: s₂ :: rest =>
      if inRange 0 23 [h₁, h₂] && inRange 0 59 [m₁, m₂] && inRange 0 60 [s₁, s₂] then
        match rest with
        | '.' :: c :: more => if c.isDigit then some (more.dropWhile Char.isDigit) else none
        | rest => some rest
      else none
  | _ => none

def afterOffset : List Char → List Char
  | 'Z' :: rest => rest
  | 'z' :: rest => rest
  | sign :: h₁ :: h₂ :: ':' :: m₁ :: m₂ :: rest =>
      if (sign == '+' || sign == '-') && inRange 0 23 [h₁, h₂] && inRange 0 59 [m₁, m₂] then rest
      else sign :: h₁ :: h₂ :: ':' :: m₁ :: m₂ :: rest
  | s => s

def dateTime? (s : List Char) : Option (List Char) :=
  match date? s with
  | none => time? s
  | some [] => some []
  | some (c :: rest) =>
      if c == 'T' || c == 't' || c == ' ' then
        match time? rest with
        | some rest => some (afterOffset rest)
        | none => some (c :: rest)
      else some (c :: rest)

def scalar? (s : List Char) : Option (List Char) :=
  match s with
  | 't' :: 'r' :: 'u' :: 'e' :: rest => some rest
  | 'f' :: 'a' :: 'l' :: 's' :: 'e' :: rest => some rest
  | _ =>
      match dateTime? s with
      | some rest => some rest
      | none => number? s

end CSharpTidy.Toml
