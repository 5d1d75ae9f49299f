import CSharpTidy.Source.ParseError

/- String and character literals. A literal is scanned with a stack of frames, one for each
   string and each interpolation hole that is open; every step takes at least one character, and
   an empty stack ends the literal. -/
namespace CSharpTidy

/-- A construct still open at the end of the input or of its line, and the input from its first
character on. -/
structure Unterminated where
  what : Construct
  opened : List Char
  deriving DecidableEq, Repr

namespace Literal

def runLength (c : Char) (s : List Char) : Nat :=
  (s.takeWhile (· == c)).length

def afterRun (c : Char) (s : List Char) : List Char :=
  s.dropWhile (· == c)

theorem afterRun_length_le (c : Char) (s : List Char) : (afterRun c s).length ≤ s.length :=
  (List.dropWhile_suffix _).length_le

theorem afterRun_cons_length (c : Char) (s : List Char) :
    (afterRun c (c :: s)).length < (c :: s).length := by
  have := afterRun_length_le c s
  simp only [afterRun, List.dropWhile_cons, BEq.rfl, if_true, List.length_cons] at this ⊢
  omega

/-- A string as its opening delimiter fixes it. `raw` counts its quotes and its dollar signs. -/
inductive Style where
  | quoted (verbatim interpolated : Bool)
  | raw (quotes dollars : Nat)
  deriving DecidableEq, Repr

inductive Opening where
  | character
  | string (style : Style)
  deriving DecidableEq, Repr

/-- The style that dollar signs and a quote run open, with the input after the delimiter. Two
quotes are an empty string. -/
def stringOpening (dollars : Nat) (verbatim : Bool) (s : List Char) : Option (Opening × List Char) :=
  match s with
  | '"' :: rest =>
      if 3 ≤ runLength '"' s then
        some (.string (.raw (runLength '"' s) dollars), afterRun '"' s)
      else some (.string (.quoted verbatim (0 < dollars)), rest)
  | _ => none

def isSigil (c : Char) : Bool :=
  c == '$' || c == '@'

/-- The literal that starts here, if one does, with the input after its opening delimiter. Of an
interpolated string's sigils at least one is a dollar sign and at most one is not. -/
def opening (s : List Char) : Option (Opening × List Char) :=
  match s with
  | '\'' :: rest => some (.character, rest)
  | '@' :: '"' :: rest => some (.string (.quoted true false), rest)
  | '"' :: _ => stringOpening 0 false s
  | _ =>
      let sigils := s.takeWhile isSigil
      let dollars := sigils.count '$'
      let ats := sigils.count '@'
      if 0 < dollars && ats ≤ 1 then
        stringOpening dollars (0 < ats) (s.dropWhile isSigil)
      else none

theorem stringOpening_length {dollars : Nat} {verbatim : Bool} {s rest : List Char} {o : Opening}
    (h : stringOpening dollars verbatim s = some (o, rest)) : rest.length < s.length := by
  unfold stringOpening at h
  split at h
  · split at h
    · cases h
      exact afterRun_cons_length _ _
    · cases h
      exact Nat.lt_succ_self _
  · cases h

theorem opening_length {s rest : List Char} {o : Opening} (h : opening s = some (o, rest)) :
    rest.length < s.length := by
  unfold opening at h
  split at h
  · cases h; exact Nat.lt_succ_self _
  · cases h; exact Nat.lt_succ_of_lt (Nat.lt_succ_self _)
  · exact stringOpening_length h
  · simp only at h
    split at h
    · exact Nat.lt_of_lt_of_le (stringOpening_length h) (List.dropWhile_suffix _).length_le
    · cases h

/-- The input after a character literal, from behind its opening quote. A backslash takes any
character along. -/
def afterCharacter : List Char → Option (List Char)
  | [] => none
  | '\\' :: _ :: rest => afterCharacter rest
  | '\'' :: rest => some rest
  | c :: rest => if isLineBreak c then none else afterCharacter rest

def afterBlockComment : List Char → Option (List Char)
  | [] => none
  | '*' :: '/' :: rest => some rest
  | _ :: rest => afterBlockComment rest

def afterLine (s : List Char) : List Char :=
  s.dropWhile fun c => !isLineBreak c

theorem afterCharacter_length {s rest : List Char} (h : afterCharacter s = some rest) :
    rest.length < s.length := by
  fun_induction afterCharacter s <;> simp_all <;> omega

theorem afterBlockComment_length {s rest : List Char} (h : afterBlockComment s = some rest) :
    rest.length < s.length := by
  fun_induction afterBlockComment s <;> simp_all <;> omega

theorem afterLine_length_le (s : List Char) : (afterLine s).length ≤ s.length :=
  (List.dropWhile_suffix _).length_le

inductive HoleStep where
  | text
  | string (style : Style)
  | openBrace
  | closeBrace
  deriving DecidableEq, Repr

/-- One step inside a hole, and the input after it. Character literals and comments are taken
whole. `opened` is the input from the literal of the hole on. -/
def holeStep (opened s : List Char) : Except Unterminated (HoleStep × List Char) :=
  match opening s with
  | some (.character, rest) =>
      match afterCharacter rest with
      | none => .error ⟨.character, s⟩
      | some rest' => .ok (.text, rest')
  | some (.string style, rest) => .ok (.string style, rest)
  | none =>
      match s with
      | [] => .error ⟨.interpolation, opened⟩
      | '/' :: '/' :: rest => .ok (.text, afterLine rest)
      | '/' :: '*' :: rest =>
          match afterBlockComment rest with
          | none => .error ⟨.comment, s⟩
          | some rest' => .ok (.text, rest')
      | '{' :: rest => .ok (.openBrace, rest)
      | '}' :: rest => .ok (.closeBrace, rest)
      | _ :: rest => .ok (.text, rest)

theorem holeStep_length {opened s rest : List Char} {step : HoleStep}
    (h : holeStep opened s = .ok (step, rest)) : rest.length < s.length := by
  unfold holeStep at h
  split at h
  · rename_i started
    split at h
    · cases h
    · rename_i ended
      cases h
      exact Nat.lt_trans (afterCharacter_length ended) (opening_length started)
  · rename_i started
    cases h
    exact opening_length started
  · split at h
    · cases h
    · cases h
      exact Nat.lt_succ_of_lt (Nat.lt_succ_of_le (afterLine_length_le _))
    · split at h
      · cases h
      · rename_i ended
        cases h
        exact Nat.lt_succ_of_lt (Nat.lt_succ_of_lt (afterBlockComment_length ended))
    · cases h; exact Nat.lt_succ_self _
    · cases h; exact Nat.lt_succ_self _
    · cases h; exact Nat.lt_succ_self _

inductive StringStep where
  | text
  | close
  | hole
  deriving DecidableEq, Repr

def quotedStep (verbatim interpolated : Bool) : List Char → Option (StringStep × List Char)
  | [] => none
  | '"' :: rest =>
      match verbatim, rest with
      | true, '"' :: rest' => some (.text, rest')
      | _, rest => some (.close, rest)
  | '\\' :: rest =>
      match verbatim, rest with
      | true, rest => some (.text, rest)
      | false, [] => none
      | false, c :: rest' => if isLineBreak c then none else some (.text, rest')
  | '{' :: rest =>
      match interpolated, rest with
      | false, rest => some (.text, rest)
      | true, '{' :: rest' => some (.text, rest')
      | true, rest => some (.hole, rest)
  | c :: rest => if !verbatim && isLineBreak c then none else some (.text, rest)

/-- One step inside a raw string. Runs of quotes and of braces are taken whole. -/
def rawStep (quotes dollars : Nat) : List Char → Option (StringStep × List Char)
  | [] => none
  | '"' :: rest =>
      some (if quotes ≤ runLength '"' ('"' :: rest) then .close else .text,
        afterRun '"' ('"' :: rest))
  | '{' :: rest =>
      if dollars = 0 then some (.text, rest)
      else
        some (if dollars ≤ runLength '{' ('{' :: rest) then .hole else .text,
          afterRun '{' ('{' :: rest))
  | _ :: rest => some (.text, rest)

namespace Style

def step : Style → List Char → Option (StringStep × List Char)
  | .quoted verbatim interpolated, s => quotedStep verbatim interpolated s
  | .raw quotes dollars, s => rawStep quotes dollars s

def construct : Style → Construct
  | .quoted .. => .string
  | .raw .. => .rawString

theorem step_length {style : Style} {s rest : List Char} {step : StringStep}
    (h : style.step s = some (step, rest)) : rest.length < s.length := by
  cases style with
  | quoted verbatim interpolated =>
    unfold Style.step quotedStep at h
    grind
  | raw quotes dollars =>
    unfold Style.step rawStep at h
    grind [afterRun_cons_length]

end Style

/-- An open string, or an open hole with the number of braces open inside it. Both keep the
input from the first character of their literal on. -/
inductive Frame where
  | string (style : Style) (opened : List Char)
  | hole (braces : Nat) (opened : List Char)
  deriving DecidableEq, Repr

def StringStep.frames (style : Style) (opened : List Char) (outer : List Frame) :
    StringStep → List Frame
  | .text => .string style opened :: outer
  | .close => outer
  | .hole => .hole 0 opened :: .string style opened :: outer

def HoleStep.frames (s : List Char) (braces : Nat) (opened : List Char) (outer : List Frame) :
    HoleStep → List Frame
  | .text => .hole braces opened :: outer
  | .string style => .string style s :: .hole braces opened :: outer
  | .openBrace => .hole (braces + 1) opened :: outer
  | .closeBrace =>
      match braces with
      | 0 => outer
      | braces + 1 => .hole braces opened :: outer

/-- The input after the constructs on the stack, innermost first. -/
def scan (stack : List Frame) (s : List Char) : Except Unterminated (List Char) :=
  match stack with
  | [] => .ok s
  | .string style opened :: outer =>
      match _step : style.step s with
      | none => .error ⟨style.construct, opened⟩
      | some (step, rest) => scan (step.frames style opened outer) rest
  | .hole braces opened :: outer =>
      match _step : holeStep opened s with
      | .error e => .error e
      | .ok (step, rest) => scan (step.frames s braces opened outer) rest
termination_by s.length
decreasing_by
  · exact Style.step_length _step
  · exact holeStep_length _step

theorem scan_length_le {stack : List Frame} {s rest : List Char} (h : scan stack s = .ok rest) :
    rest.length ≤ s.length := by
  fun_induction scan stack s <;> grind [→ Style.step_length, → holeStep_length]

def after (s : List Char) : Except Unterminated (Option (List Char)) :=
  match opening s with
  | none => .ok none
  | some (.character, rest) =>
      match afterCharacter rest with
      | none => .error ⟨.character, s⟩
      | some rest' => .ok (some rest')
  | some (.string style, rest) =>
      match scan [.string style s] rest with
      | .error e => .error e
      | .ok rest' => .ok (some rest')

theorem after_length {s rest : List Char} (h : after s = .ok (some rest)) :
    rest.length < s.length := by
  unfold after at h
  split at h
  · cases h
  · rename_i opened
    split at h
    · cases h
    · rename_i ended
      cases h
      exact Nat.lt_trans (afterCharacter_length ended) (opening_length opened)
  · rename_i opened
    split at h
    · cases h
    · rename_i scanned
      cases h
      exact Nat.lt_of_le_of_lt (scan_length_le scanned) (opening_length opened)

end Literal

end CSharpTidy
