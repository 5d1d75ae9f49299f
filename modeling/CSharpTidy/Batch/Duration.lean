/- How long a run took, as text: milliseconds below one second, seconds below one minute, then
   minutes. Seconds and minutes are binary floating point numbers, written with one decimal. -/
namespace CSharpTidy

structure Duration where
  seconds : Nat
  nanoseconds : Nat
  deriving DecidableEq, Repr

namespace Duration

def ofMilliseconds (millis : Nat) : Duration :=
  ⟨millis / 1000, millis % 1000 * 1000000⟩

def milliseconds (d : Duration) : Nat :=
  d.seconds * 1000 + d.nanoseconds / 1000000

/-- A quotient to the nearest integer, a half to the even neighbour. -/
def roundDiv (num den : Nat) : Nat :=
  let q := num / den
  let r := num % den
  if 2 * r < den then q
  else if den < 2 * r then q + 1
  else if q % 2 == 0 then q
  else q + 1

/-- A positive finite number in tenths, rounded from its exact value. -/
def tenths (x : Float) : Nat :=
  let bits := x.toBits.toNat
  let exponent := bits / Nat.pow 2 52 % Nat.pow 2 11
  let fraction := bits % Nat.pow 2 52
  let mantissa := if exponent == 0 then fraction else fraction + Nat.pow 2 52
  let scale := if exponent == 0 then 1 else exponent
  if 1075 ≤ scale then mantissa * Nat.pow 2 (scale - 1075) * 10
  else roundDiv (mantissa * 10) (Nat.pow 2 (1075 - scale))

def oneDecimal (x : Float) : String :=
  let n := tenths x
  s!"{n / 10}.{n % 10}"

def inSeconds (d : Duration) : Float :=
  d.seconds.toUInt64.toFloat + d.nanoseconds.toUInt64.toFloat / 1000000000.0

def text (d : Duration) : String :=
  if d.milliseconds < 1000 then s!"{d.milliseconds}ms"
  else if d.seconds < 60 then oneDecimal d.inSeconds ++ "s"
  else oneDecimal (d.inSeconds / 60.0) ++ " minutes"

end Duration

end CSharpTidy
