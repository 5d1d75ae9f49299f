import CSharpTidy.Source.ParseError

/- Runs that check themselves. Every difference, index and slice is taken only where it is in range,
   and a loop goes on only if it got nearer to its end; a run that fails such a check stops. What a
   run gives where no check fails is then what it gives without checks. -/
namespace CSharpTidy

/-- Why a run stops: what it reads is at fault, or a check failed. -/
inductive Halt (ε : Type) where
  | fault (e : ε)
  | underflow
  | outOfRange
  | stalled
  deriving DecidableEq, Repr

abbrev Checked (ε α : Type) := Except (Halt ε) α

abbrev Check (α : Type) := Checked ParseError α

namespace Checked

variable {ε α β : Type}

def ofExcept (r : Except ε α) : Checked ε α :=
  r.mapError .fault

def sub (a b : Nat) : Checked ε Nat :=
  if b ≤ a then .ok (a - b) else .error .underflow

def get (xs : List α) (i : Nat) : Checked ε α :=
  match xs[i]? with
  | some x => .ok x
  | none => .error .outOfRange

def slice (xs : List α) (start stop : Nat) : Checked ε (List α) :=
  if start ≤ stop ∧ stop ≤ xs.length then .ok (xs.extract start stop) else .error .outOfRange

/-- A run passes its checks, and what it gives is `b` as `view` sees it. -/
def Yields (view : α → β) (run : Checked ε α) (b : β) : Prop :=
  ∃ a, run = .ok a ∧ view a = b

variable {xs : List α} {stop i : Nat} {x : α} {b : β}

theorem ite_rel {R : α → β → Prop} {c : Prop} [Decidable c] {a a' : α} {b' : β} (yes : c → R a b)
    (no : ¬ c → R a' b') : R (if c then a else a') (if c then b else b') := by
  split
  · exact yes ‹_›
  · exact no ‹_›

@[simp] theorem ok_bind (a : α) (f : α → Checked ε β) :
    (Except.ok a : Checked ε α) >>= f = f a := rfl

@[simp] theorem error_bind (stop : Halt ε) (f : α → Checked ε β) :
    (Except.error stop : Checked ε α) >>= f = .error stop := rfl

theorem ok_of_bind {r : Checked ε α} {f : α → Checked ε β} (h : r >>= f = .ok b) :
    ∃ a, r = .ok a ∧ f a = .ok b := by
  cases r with
  | error halt => cases h
  | ok a => exact ⟨a, rfl, h⟩

@[simp] theorem pure_eq (a : α) : (pure a : Checked ε α) = .ok a := rfl

@[simp] theorem ofExcept_ok (a : α) : ofExcept (.ok a : Except ε α) = .ok a := rfl

@[simp] theorem ofExcept_error (e : ε) : ofExcept (.error e : Except ε α) = .error (.fault e) := rfl

@[simp] theorem sub_succ (n : Nat) : (sub (n + 1) 1 : Checked ε Nat) = .ok n := by
  simp [sub]

theorem get_of_some (h : xs[i]? = some x) : (get xs i : Checked ε α) = .ok x := by
  simp [get, h]

theorem slice_of_le {start : Nat} (first : start ≤ stop) (last : stop ≤ xs.length) :
    (slice xs start stop : Checked ε (List α)) = .ok (xs.extract start stop) :=
  if_pos ⟨first, last⟩

theorem drop_of_some (h : xs[i]? = some x) : xs.drop i = x :: xs.drop (i + 1) := by
  obtain ⟨inside, rfl⟩ := List.getElem?_eq_some_iff.mp h
  exact List.drop_eq_getElem_cons inside

theorem drop_of_none (h : xs[i]? = none) : xs.drop i = [] :=
  List.drop_eq_nil_of_le (List.getElem?_eq_none_iff.mp h)

theorem extract_of_some (h : xs[i]? = some x) (inside : i < stop) :
    xs.extract i stop = x :: xs.extract (i + 1) stop := by
  obtain ⟨k, rfl⟩ := Nat.exists_eq_add_of_lt inside
  rw [List.extract_eq_take_drop, List.extract_eq_take_drop, drop_of_some h,
    show i + k + 1 - i = k + 1 by omega, show i + k + 1 - (i + 1) = k by omega]
  rfl

theorem extract_of_le (h : stop ≤ i) : xs.extract i stop = [] := by
  rw [List.extract_eq_take_drop, Nat.sub_eq_zero_of_le h, List.take_zero]

end Checked

end CSharpTidy
