import CSharpTidy.Files.Path

/- Glob patterns. A star stands for any text and a question mark for any character, slashes
   included; two stars stand for whole leading path components; brackets hold a set. -/
namespace CSharpTidy

namespace Glob

inductive CharSet where
  | single (c : Char)
  | range (first last : Char)
  deriving DecidableEq, Repr

def CharSet.contains : CharSet → Char → Bool
  | .single a, c => a == c
  | .range first last, c => first ≤ c && c ≤ last

inductive Part where
  | char (c : Char)
  | any
  | star
  | stars
  | within (sets : List CharSet)
  | except (sets : List CharSet)
  deriving DecidableEq, Repr

def charSets : List Char → List CharSet
  | first :: '-' :: last :: rest => .range first last :: charSets rest
  | c :: rest => .single c :: charSets rest
  | [] => []

/-- The contents of a bracket, which are never empty, and what follows it. -/
def bracket : List Char → Option (List Char × List Char)
  | [] => none
  | c :: rest =>
      match rest.dropWhile (· != ']') with
      | [] => none
      | _ :: after => some (c :: rest.takeWhile (· != ']'), after)

theorem bracket_length {s contents after : List Char} (h : bracket s = some (contents, after)) :
    after.length < s.length := by
  unfold bracket at h
  split at h
  · cases h
  · rename_i c rest
    have := (List.dropWhile_suffix (l := rest) (· != ']')).length_le
    split at h
    · cases h
    · rename_i eq
      cases h
      rw [eq] at this
      exact Nat.lt_succ_of_lt this

/-- Reads a pattern. `previous` is the character in front of it: two stars must be a whole path
component, and three are none. -/
def partsFrom (previous : Option Char) (s : List Char) : Option (List Part) :=
  match s with
  | [] => some []
  | '?' :: rest => (partsFrom (some '?') rest).map (.any :: ·)
  | '*' :: '*' :: '*' :: _ => none
  | '*' :: '*' :: rest =>
      if previous == none || previous == some '/' then
        match rest with
        | [] => some [.stars]
        | '/' :: rest => (partsFrom (some '/') rest).map (.stars :: ·)
        | _ => none
      else none
  | '*' :: rest => (partsFrom (some '*') rest).map (.star :: ·)
  | '[' :: '!' :: rest =>
      match _bracket : bracket rest with
      | none => none
      | some (contents, after) => (partsFrom (some ']') after).map (.except (charSets contents) :: ·)
  | '[' :: rest =>
      match _bracket : bracket rest with
      | none => none
      | some (contents, after) => (partsFrom (some ']') after).map (.within (charSets contents) :: ·)
  | c :: rest => (partsFrom (some c) rest).map (.char c :: ·)
termination_by s.length
decreasing_by
  all_goals first
    | exact Nat.lt_succ_self _
    | exact Nat.lt_succ_of_lt (Nat.lt_succ_of_lt (Nat.lt_succ_self _))
    | exact Nat.lt_succ_of_lt (Nat.lt_succ_of_lt (bracket_length _bracket))
    | exact Nat.lt_succ_of_lt (bracket_length _bracket)

def Part.accepts : Part → Char → Bool
  | .char a, c => a == c
  | .any, _ => true
  | .within sets, c => sets.any (·.contains c)
  | .except sets, c => !sets.any (·.contains c)
  | .star, _ | .stars, _ => false

def suffixes : List Char → List (List Char)
  | [] => [[]]
  | c :: rest => (c :: rest) :: suffixes rest

/-- What is left of the text behind each slash and at its end. -/
def restarts : List Char → List (List Char)
  | [] => [[]]
  | c :: rest => if c == '/' then rest :: restarts rest else restarts rest

/-- How a pattern fares on a text: it fits the whole of it, it differs, or the text ends too
early, and then no rest of the text is long enough either. -/
inductive Fit where
  | whole | differs | short
  deriving DecidableEq, Repr

/-- The first fit among texts, longest first, that does not differ. -/
def firstFit (fit : List Char → Fit) : List (List Char) → Fit
  | [] => .differs
  | s :: rest =>
      match fit s with
      | .whole => .whole
      | .short => .short
      | .differs => firstFit fit rest

/-- Fits a pattern to a text. Two stars skip whole path components, or all that is left. -/
def fit : List Part → List Char → Fit
  | [], [] => .whole
  | [], _ :: _ => .differs
  | .star :: ps, s => firstFit (fit ps) (suffixes s)
  | .stars :: ps, s => firstFit (fit ps) (s :: restarts s)
  | _ :: _, [] => .short
  | p :: ps, c :: s => if p.accepts c then fit ps s else .differs

end Glob

structure Glob where
  parts : List Glob.Part
  deriving DecidableEq, Repr

namespace Glob

def parse? (pattern : String) : Option Glob :=
  (partsFrom none pattern.toList).map .mk

def matchesText (g : Glob) (text : List Char) : Bool :=
  fit g.parts text == .whole

end Glob

/-- Whether a pattern fits the whole path or the name of one of its components. -/
def Path.isExcluded (patterns : List Glob) (p : Path) : Bool :=
  patterns.any fun g =>
    g.matchesText p.text.toList ||
      (p.components.filterMap Component.name?).any g.matchesText

end CSharpTidy
