/- Sets of characters, given as increasing inclusive ranges of code points. -/
namespace CSharpTidy.Text

/- The search stops at the first range past the code point. -/
def inRanges : List (Nat × Nat) → Nat → Bool
  | [], _ => false
  | (first, last) :: rest, n =>
      if n < first then false
      else if n ≤ last then true
      else inRanges rest n

end CSharpTidy.Text
