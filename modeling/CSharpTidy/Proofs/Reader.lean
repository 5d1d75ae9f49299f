import CSharpTidy.Proofs.TrimmedText

/- A text read one step at a time, without positions. A step passes one character between the
   tokens or in dead code, one comment, one directive line, or one lexeme; what it does depends on
   the text ahead, the state of conditional compilation and the place on the line. How blanks are
   cut into pieces plays no part, so that texts which differ in blanks can be compared. -/
namespace CSharpTidy

/-- What stands on the line so far: blanks alone, white space with a U+FEFF among it, or more. In
dead code a directive counts only behind blanks alone. -/
inductive Place where
  | start | masked | inside
  deriving DecidableEq, Repr

variable {s : List Char} {c : Char}

namespace Place

def next (p : Place) (c : Char) : Place :=
  if isLineBreak c then .start
  else
    match p with
    | .start => if Text.isBlank c then .start else if isSpace c then .masked else .inside
    | .masked => if isSpace c then .masked else .inside
    | .inside => .inside

def after (p : Place) (s : List Char) : Place :=
  s.foldl next p

@[simp] theorem after_nil (p : Place) : p.after [] = p := rfl

@[simp] theorem after_cons (p : Place) (c : Char) (s : List Char) :
    p.after (c :: s) = (p.next c).after s := rfl

theorem after_append (p : Place) (s t : List Char) : p.after (s ++ t) = (p.after s).after t :=
  List.foldl_append ..

theorem next_of_isLineBreak (h : isLineBreak c) (p : Place) : p.next c = .start := by
  simp [next, h]

theorem next_of_solid (h : isVoid c = false) (p : Place) : p.next c = .inside := by
  have blank := not_isBlank_of_solid h
  simp only [isVoid, Bool.or_eq_false_iff] at h
  cases p <;> simp [next, h, blank]

theorem after_blank (h : ∀ c ∈ s, Text.isBlank c) : start.after s = .start := by
  induction s with
  | nil => rfl
  | cons c s ih =>
    rw [List.forall_mem_cons] at h
    have stays : start.next c = .start := by simp [next, h.1]
    rw [after_cons, stays, ih h.2]

theorem after_of_breaks (h : s ≠ []) (breaks : ∀ c ∈ s, isLineBreak c) (p : Place) :
    p.after s = .start := by
  obtain ⟨c, s, rfl⟩ := List.exists_cons_of_ne_nil h
  rw [List.forall_mem_cons] at breaks
  rw [after_cons, next_of_isLineBreak breaks.1]
  exact after_blank fun d mem => isBlank_of_isLineBreak (breaks.2 d mem)

theorem after_inside (h : ∀ c ∈ s, isLineBreak c = false) : inside.after s = .inside := by
  induction s with
  | nil => rfl
  | cons c s ih =>
    rw [List.forall_mem_cons] at h
    have stays : inside.next c = .inside := by simp [next, h.1]
    rw [after_cons, stays, ih h.2]

end Place

inductive Atom where
  | trivia (t : Trivia)
  | token (l : Lexeme)
  deriving DecidableEq, Repr

def Trivia.directiveLine (line : List Char) : Trivia :=
  ⟨.directive (DirectiveLine.kind line), String.ofList line⟩

structure Reader where
  place : Place
  conditional : Conditional
  deriving DecidableEq, Repr

/-- What one step comes to: a directive or a lexeme, or nothing that counts. -/
structure Passed where
  found : List Atom
  reader : Reader
  rest : List Char

namespace Reader

def pass (r : Reader) (c : Char) (rest : List Char) : Passed :=
  ⟨[], ⟨r.place.next c, r.conditional⟩, rest⟩

def directive (r : Reader) (s : List Char) : Option Passed :=
  let line := s.takeWhile fun c => !isLineBreak c
  match r.conditional.apply (DirectiveLine.kind line) line with
  | .error _ => none
  | .ok conditional =>
      some ⟨[.trivia (.directiveLine line)], ⟨.inside, conditional⟩, Literal.afterLine s⟩

def live (r : Reader) (c : Char) (rest : List Char) : Option Passed :=
  if isVoid c then some (r.pass c rest)
  else if c == '#' && r.place != .inside then r.directive (c :: rest)
  else
    match Piece.comment? (c :: rest) with
    | .error _ => none
    | .ok (some p) => some ⟨[], ⟨.inside, r.conditional⟩, p.rest⟩
    | .ok none =>
        match Piece.lexeme c rest with
        | .error _ => none
        | .ok p =>
            some ⟨[.token ⟨p.kind, String.ofList p.text⟩], ⟨.inside, r.conditional⟩, p.rest⟩

/-- Whether the line that starts here opens, continues or closes a branch. -/
def switches (s : List Char) : Bool :=
  (DirectiveLine.kind (s.takeWhile fun c => !isLineBreak c)).isConditional

def dead (r : Reader) (c : Char) (rest : List Char) : Option Passed :=
  if c == '#' && r.place == .start && switches (c :: rest) then r.directive (c :: rest)
  else some (r.pass c rest)

def step (r : Reader) (c : Char) (rest : List Char) : Option Passed :=
  if r.conditional.isActive then r.live c rest else r.dead c rest

theorem directive_length {r : Reader} {p : Passed} (h : r.directive ('#' :: s) = some p) :
    p.rest.length ≤ s.length := by
  have line : Literal.afterLine ('#' :: s) = Literal.afterLine s := rfl
  simp only [directive] at h
  split at h
  · cases h
  · cases h
    rw [line]
    exact Literal.afterLine_length_le s

theorem step_length {r : Reader} {c : Char} {s : List Char} {p : Passed} (h : r.step c s = some p) :
    p.rest.length ≤ s.length := by
  unfold step live dead at h
  split at h
  · split at h
    · cases h
      exact Nat.le_refl _
    · split at h
      · rename_i hash
        obtain ⟨rfl, -⟩ : c = '#' ∧ _ := by simpa using hash
        exact directive_length h
      · split at h
        · cases h
        · rename_i found
          cases h
          exact Nat.le_of_lt_succ (Piece.comment?_length found)
        · split at h
          · cases h
          · rename_i found
            cases h
            exact Nat.le_of_lt_succ (Piece.lexeme_length found)
  · split at h
    · rename_i hash
      obtain ⟨⟨rfl, -⟩, -⟩ : (c = '#' ∧ _) ∧ _ := by simpa using hash
      exact directive_length h
    · cases h
      exact Nat.le_refl _

end Reader

inductive Steps : Reader → List Char → List Atom → Reader → List Char → Prop
  | refl (r : Reader) (s : List Char) : Steps r s [] r s
  | cons {r r' : Reader} {c : Char} {s s' : List Char} {p : Passed} {as : List Atom}
      (first : r.step c s = some p) (more : Steps p.reader p.rest as r' s') :
      Steps r (c :: s) (p.found ++ as) r' s'

inductive Reads : Reader → List Char → List Atom → Prop
  | done {r : Reader} (closed : r.conditional.branches = []) : Reads r [] []
  | cons {r : Reader} {c : Char} {s : List Char} {p : Passed} {as : List Atom}
      (first : r.step c s = some p) (more : Reads p.reader p.rest as) :
      Reads r (c :: s) (p.found ++ as)

namespace Steps

variable {r r' r'' : Reader} {s s' s'' : List Char} {as bs : List Atom}

theorem single {p : Passed} (first : r.step c s = some p) :
    Steps r (c :: s) p.found p.reader p.rest := by
  simpa using Steps.cons first (.refl p.reader p.rest)

theorem trans (h : Steps r s as r' s') (more : Steps r' s' bs r'' s'') :
    Steps r s (as ++ bs) r'' s'' := by
  induction h with
  | refl => exact more
  | cons first _ ih =>
    rw [List.append_assoc]
    exact .cons first (ih more)

theorem length_le (h : Steps r s as r' s') : s'.length ≤ s.length := by
  induction h with
  | refl => exact Nat.le_refl _
  | cons first _ ih => exact Nat.le_succ_of_le (ih.trans (Reader.step_length first))

/-- There is one way to read up to a place in a text. -/
theorem unique (h : Steps r s as r' s') (h' : Steps r s bs r'' s') : r' = r'' := by
  induction h generalizing bs with
  | refl r s =>
    cases h' with
    | refl => rfl
    | cons first more =>
      have shorter := more.length_le.trans (Reader.step_length first)
      exact absurd shorter (Nat.not_succ_le_self _)
  | cons first more ih =>
    cases h' with
    | refl =>
      have shorter := more.length_le.trans (Reader.step_length first)
      exact absurd shorter (Nat.not_succ_le_self _)
    | cons first' more' =>
      rw [first] at first'
      cases first'
      exact ih more'

theorem reads (h : Steps r s as r' s') (rest : Reads r' s' bs) : Reads r s (as ++ bs) := by
  induction h with
  | refl => exact rest
  | cons first _ ih =>
    rw [List.append_assoc]
    exact .cons first (ih rest)

end Steps

namespace Reads

variable {r r' : Reader} {s s' : List Char} {as bs : List Atom}

theorem of_steps (h : Reads r s as) (steps : Steps r s bs r' s') :
    ∃ rest, as = bs ++ rest ∧ Reads r' s' rest := by
  induction steps generalizing as with
  | refl => exact ⟨as, rfl, h⟩
  | cons first _ ih =>
    cases h with
    | cons first' more =>
      rw [first] at first'
      cases first'
      obtain ⟨rest, rfl, reads⟩ := ih more
      exact ⟨rest, (List.append_assoc ..).symm, reads⟩

theorem unique (h : Reads r s as) (h' : Reads r s bs) : as = bs := by
  induction h generalizing bs with
  | done => cases h'; rfl
  | cons first _ ih =>
    cases h' with
    | cons first' more =>
      rw [first] at first'
      cases first'
      rw [ih more]

end Reads

end CSharpTidy
