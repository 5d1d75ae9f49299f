import CSharpTidy.Proofs.CheckedRun
import CSharpTidy.Tree.Member

/- Members told by the indices of their lexemes. The searches go from index to index and count the
   groups that are open; each difference, index and slice is checked. No check fails on any slice
   of lexemes, and the outcome is that of the searches which go from suffix to suffix. -/
namespace CSharpTidy

open Checked

/-- A word is not written as an angle bracket. -/
def Lexeme.Regular (l : Lexeme) : Prop :=
  l.isWord → l.text ≠ "<"

namespace Indexed

def isAt (ls : List Lexeme) (i : Nat) (text : String) : Bool :=
  ls[i]?.any (·.is text)

def isWordAt (ls : List Lexeme) (i : Nat) : Bool :=
  ls[i]?.any Lexeme.isWord

/-- The index of the closer that leaves no group open, from `i` on with `depth` groups open. -/
def closer? (opener closer : String) (ls : List Lexeme) (depth i : Nat) : Check (Option Nat) :=
  match _here : ls[i]? with
  | none => .ok none
  | some l =>
      if l.is opener then closer? opener closer ls (depth + 1) (i + 1)
      else if l.is closer then
        match sub depth 1 with
        | .error stop => .error stop
        | .ok depth' => if depth' = 0 then .ok (some i) else closer? opener closer ls depth' (i + 1)
      else closer? opener closer ls depth (i + 1)
termination_by ls.length - i
decreasing_by
  all_goals
    have := (List.getElem?_eq_some_iff.mp _here).1
    omega

/-- The index of the closing angle bracket. At a lexeme that cannot stand in a list of type
arguments the search is given up. -/
def angleCloser? (ls : List Lexeme) (depth i : Nat) : Check (Option Nat) :=
  match _here : ls[i]? with
  | none => .ok none
  | some l =>
      if l.isWord then angleCloser? ls depth (i + 1)
      else if l.text == "<" then angleCloser? ls (depth + 1) (i + 1)
      else if l.text == ">" then
        match sub depth 1 with
        | .error stop => .error stop
        | .ok depth' => if depth' = 0 then .ok (some i) else angleCloser? ls depth' (i + 1)
      else if [",", ".", "?", "[", "]", "(", ")", "::", "*"].contains l.text then
        angleCloser? ls depth (i + 1)
      else .ok none
termination_by ls.length - i
decreasing_by
  all_goals
    have := (List.getElem?_eq_some_iff.mp _here).1
    omega

def listLength (ls : List Lexeme) (opener closer : Nat) : Check Nat := do
  let entries ← slice ls (opener + 1) closer
  return Lexeme.listLength entries

def params (ls : List Lexeme) (opener : Nat) : Check Nat := do
  match ← closer? "(" ")" ls 0 opener with
  | none => return 0
  | some closer => listLength ls opener closer

def typeArguments (ls : List Lexeme) (i : Nat) : Check (Option (Nat × Nat)) := do
  if isAt ls i "<" then
    match ← angleCloser? ls 0 i with
    | none => return none
    | some closer => return some (← listLength ls i closer, closer + 1)
  else return some (0, i)

variable {ls : List Lexeme} {opener : String} {depth i j : Nat}

theorem closer?_bounds {closer : String} (h : closer? opener closer ls depth i = .ok (some j)) :
    i ≤ j ∧ j < ls.length := by
  fun_induction closer? opener closer ls depth i with
  | case1 => cases h
  | case2 depth i l here _ ih => have := ih h; omega
  | case3 => cases h
  | case4 depth i l here =>
    cases h
    exact ⟨Nat.le_refl _, (List.getElem?_eq_some_iff.mp here).1⟩
  | case5 depth i l here _ _ depth' _ _ ih => have := ih h; omega
  | case6 depth i l here _ _ ih => have := ih h; omega

theorem angleCloser?_bounds (h : angleCloser? ls depth i = .ok (some j)) :
    i ≤ j ∧ j < ls.length := by
  fun_induction angleCloser? ls depth i with
  | case1 => cases h
  | case2 depth i l here _ ih => have := ih h; omega
  | case3 depth i l here _ _ ih => have := ih h; omega
  | case4 => cases h
  | case5 depth i l here =>
    cases h
    exact ⟨Nat.le_refl _, (List.getElem?_eq_some_iff.mp here).1⟩
  | case6 depth i l here _ _ _ depth' _ _ ih => have := ih h; omega
  | case7 depth i l here _ _ _ _ ih => have := ih h; omega
  | case8 => cases h

theorem isWordAt_lt (h : isWordAt ls i) : i < ls.length := by
  rw [isWordAt] at h
  cases here : ls[i]? with
  | none => simp [here] at h
  | some l => exact (List.getElem?_eq_some_iff.mp here).1

theorem typeArguments_le {n : Nat} (h : typeArguments ls i = .ok (some (n, j))) : i ≤ j := by
  unfold typeArguments at h
  split at h
  · cases found : angleCloser? ls 0 i with
    | error stop => simp [found] at h
    | ok closer =>
      cases closer with
      | none => simp [found] at h
      | some closer =>
        have := angleCloser?_bounds found
        cases counted : listLength ls i closer with
        | error stop => simp [found, counted] at h
        | ok n =>
          simp [found, counted] at h
          omega
  · simp at h
    omega

def afterTypeName (ls : List Lexeme) (i : Nat) : Check (Option Nat) :=
  match _arguments : typeArguments ls i with
  | .error stop => .error stop
  | .ok none => .ok none
  | .ok (some (_, j)) =>
      if _joined : (isAt ls j "." || isAt ls j "::") && isWordAt ls (j + 1) then
        afterTypeName ls (j + 2)
      else .ok (some j)
termination_by ls.length - i
decreasing_by
  have := typeArguments_le _arguments
  have := isWordAt_lt (Bool.and_eq_true_iff.mp _joined).2
  omega

def afterTypeMarks (ls : List Lexeme) (i : Nat) : Check (Option Nat) :=
  match _here : ls[i]? with
  | none => .ok (some i)
  | some l =>
      if l.is "?" || l.is "*" then afterTypeMarks ls (i + 1)
      else if l.is "[" && (isAt ls (i + 1) "]" || isAt ls (i + 1) ",") then
        match _group : closer? "[" "]" ls 0 i with
        | .error stop => .error stop
        | .ok none => .ok none
        | .ok (some closer) => afterTypeMarks ls (closer + 1)
      else .ok (some i)
termination_by ls.length - i
decreasing_by
  · have := (List.getElem?_eq_some_iff.mp _here).1
    omega
  · have := closer?_bounds _group
    omega

def afterType (ls : List Lexeme) (i : Nat) : Check (Option Nat) := do
  match ls[i]? with
  | none => return none
  | some l =>
      if l.is "(" then
        match ← closer? "(" ")" ls 0 i with
        | none => return none
        | some closer => afterTypeMarks ls (closer + 1)
      else if l.isWord then
        match ← afterTypeName ls (i + 1) with
        | none => return none
        | some j => afterTypeMarks ls j
      else return none

inductive Name where
  | named (name : String) (typeParams next : Nat)
  | indexer
  | operator
  | unknown

def name (ls : List Lexeme) (i : Nat) : Check Name :=
  match get ls i with
  | .error stop => .error stop
  | .ok word =>
      match _arguments : typeArguments ls (i + 1) with
      | .error stop => .error stop
      | .ok none => .ok .unknown
      | .ok (some (typeParams, j)) =>
          if !isAt ls j "." then .ok (.named word.text typeParams j)
          else if isAt ls (j + 1) "this" then .ok .indexer
          else if isAt ls (j + 1) "operator" then .ok .operator
          else if _qualified : isWordAt ls (j + 1) then name ls (j + 1)
          else .ok .unknown
termination_by ls.length - i
decreasing_by
  have := typeArguments_le _arguments
  have := isWordAt_lt _qualified
  omega

def ofName (ls : List Lexeme) (name : String) (typeParams next : Nat) :
    Check (DeclKind × DeclKey) := do
  match ls[next]? with
  | none => return Member.other .unknown
  | some l =>
      if l.is "(" then return (.method, ⟨name, typeParams, ← params ls next⟩)
      else if 0 < typeParams then return Member.other .unknown
      else if l.is "\x7b" || l.is "=>" then return (.property, ⟨name, 0, 0⟩)
      else if l.is ";" || l.is "=" || l.is "," || l.is "[" then return (.field, ⟨name, 0, 0⟩)
      else return Member.other .unknown

def ofTypedMember (ls : List Lexeme) : Check (DeclKind × DeclKey) := do
  match ← afterType ls 0 with
  | none => return Member.other .unknown
  | some i =>
      if isAt ls i "operator" then return Member.other .operator
      else if isAt ls i "this" then return Member.other .indexer
      else if !isWordAt ls i then return Member.other .unknown
      else
        match ← name ls i with
        | .named name typeParams next => ofName ls name typeParams next
        | .indexer => return Member.other .indexer
        | .operator => return Member.other .operator
        | .unknown => return Member.other .unknown

def ofTypeMember (ls : List Lexeme) : Check (DeclKind × DeclKey) := do
  if isWordAt ls 0 && isAt ls 1 "(" then
    let word ← get ls 0
    return (.constructor, ⟨word.text, 0, ← params ls 1⟩)
  else ofTypedMember ls

/-- The kind and the key of a member, from the slice of its lexemes. -/
def classify (scope : Scope) (ls : List Lexeme) : Check (DeclKind × DeclKey) :=
  match ls.head?.map Lexeme.text with
  | some "delegate" => .ok (Member.other .delegate)
  | some "event" => .ok (Member.other .event)
  | some "~" => .ok (Member.other .destructor)
  | some "implicit" => .ok (Member.other .operator)
  | some "explicit" => .ok (Member.other .operator)
  | _ =>
      match scope with
      | .compilationUnit => .ok (Member.other .statement)
      | .namespaceBody => .ok (Member.other .unknown)
      | .typeBody => ofTypeMember ls

section Suffixes

variable {ls : List Lexeme} {i : Nat}

theorem isAt_eq (ls : List Lexeme) (i : Nat) (text : String) :
    isAt ls i text = Lexeme.startsWith (ls.drop i) text := by
  rw [isAt, Lexeme.startsWith, List.head?_drop]

theorem isWordAt_eq (ls : List Lexeme) (i : Nat) :
    isWordAt ls i = Lexeme.startsWithWord (ls.drop i) := by
  rw [isWordAt, Lexeme.startsWithWord, List.head?_drop]

theorem closer?_finds (opener closer : String) (ls : List Lexeme) (i inner : Nat) :
    Yields (Option.map fun j => ls.drop (j + 1)) (closer? opener closer ls (inner + 1) i)
      (Lexeme.afterGroup opener closer inner (ls.drop i)) := by
  induction left : ls.length - i using Nat.strongRecOn generalizing i inner with
  | ind left ih =>
    rw [closer?.eq_def]
    split
    · rename_i here
      exact ⟨none, rfl, by rw [drop_of_none here]; rfl⟩
    · rename_i l here
      have inside := (List.getElem?_eq_some_iff.mp here).1
      have next (inner) := ih (ls.length - (i + 1)) (by omega) (i + 1) inner rfl
      rw [drop_of_some here, Lexeme.afterGroup.eq_def]
      refine ite_rel (fun _ => next _) fun _ => ite_rel (fun _ => ?_) fun _ => next _
      rw [sub_succ]
      cases inner with
      | zero => exact ⟨some i, rfl, rfl⟩
      | succ inner => exact next inner

theorem angleCloser?_finds (ls : List Lexeme) (i inner : Nat) :
    Yields (Option.map fun j => ls.drop (j + 1)) (angleCloser? ls (inner + 1) i)
      (Lexeme.afterAngles inner (ls.drop i)) := by
  induction left : ls.length - i using Nat.strongRecOn generalizing i inner with
  | ind left ih =>
    rw [angleCloser?.eq_def]
    split
    · rename_i here
      exact ⟨none, rfl, by rw [drop_of_none here]; rfl⟩
    · rename_i l here
      have inside := (List.getElem?_eq_some_iff.mp here).1
      have next (inner) := ih (ls.length - (i + 1)) (by omega) (i + 1) inner rfl
      rw [drop_of_some here, Lexeme.afterAngles.eq_def]
      refine ite_rel (fun _ => next _) fun _ => ite_rel (fun _ => next _) fun _ =>
        ite_rel (fun _ => ?_) fun _ => ite_rel (fun _ => next _) fun _ => ⟨none, rfl, rfl⟩
      rw [sub_succ]
      cases inner with
      | zero => exact ⟨some i, rfl, rfl⟩
      | succ inner => exact next inner

variable {l : Lexeme}

theorem closer?_opener (closer : String) (here : ls[i]? = some l) (opens : l.is opener) :
    closer? opener closer ls 0 i = closer? opener closer ls 1 (i + 1) := by
  rw [closer?.eq_def]
  split
  · rename_i absent
    cases absent.symm.trans here
  · rename_i found
    cases found.symm.trans here
    rw [if_pos opens]

/-- A word would be passed over, and the search be left with no group open. -/
theorem angleCloser?_opener (regular : ∀ l ∈ ls, l.Regular) (here : ls[i]? = some l)
    (opens : l.is "<") : angleCloser? ls 0 i = angleCloser? ls 1 (i + 1) := by
  have text : l.text = "<" := by
    rw [Lexeme.is, Bool.and_eq_true, beq_iff_eq] at opens
    exact opens.2
  have noWord : ¬ l.isWord := fun word => regular l (List.mem_of_getElem? here) word text
  rw [angleCloser?.eq_def]
  split
  · rename_i absent
    cases absent.symm.trans here
  · rename_i found
    cases found.symm.trans here
    rw [if_neg noWord, if_pos (beq_iff_eq.mpr text)]

theorem group_found (closer : String) (here : ls[i]? = some l) (opens : l.is opener) :
    ∃ found, closer? opener closer ls 0 i = .ok found ∧
      found.map (fun j => ls.drop (j + 1)) =
        Lexeme.afterGroup opener closer 0 (ls.drop (i + 1)) ∧
      ∀ j, found = some j → i < j ∧ j < ls.length := by
  obtain ⟨found, run, behind⟩ := closer?_finds opener closer ls (i + 1) 0
  refine ⟨found, (closer?_opener closer here opens).trans run, behind, ?_⟩
  rintro j rfl
  exact closer?_bounds run

theorem listLength_eq {opener closer : Nat} (order : opener < closer) (inside : closer < ls.length) :
    listLength ls opener closer =
      .ok (Lexeme.listLength
        (Lexeme.inside (ls.drop (opener + 1)) (ls.drop (closer + 1)))) := by
  have entries : Lexeme.inside (ls.drop (opener + 1)) (ls.drop (closer + 1)) =
      ls.extract (opener + 1) closer := by
    rw [Lexeme.inside, List.extract_eq_take_drop, List.length_drop, List.length_drop]
    congr 1
    omega
  rw [listLength, slice_of_le order (Nat.le_of_lt inside), entries]
  rfl

theorem params_eq (here : ls[i]? = some l) (opens : l.is "(") :
    params ls i = .ok (Member.params (ls.drop (i + 1))) := by
  obtain ⟨found, run, behind, bounds⟩ := group_found ")" here opens
  rw [params, run, Member.params, ← behind]
  cases found with
  | none => rfl
  | some closer => exact listLength_eq (bounds closer rfl).1 (bounds closer rfl).2

theorem typeArguments_found (regular : ∀ l ∈ ls, l.Regular) (i : Nat) :
    Yields (Option.map fun a => (a.1, ls.drop a.2)) (typeArguments ls i)
      (Member.typeArguments (ls.drop i)) := by
  cases here : ls[i]? with
  | none =>
    rw [typeArguments, isAt, here, drop_of_none here]
    exact ⟨some (0, i), rfl, by rw [Option.map_some, drop_of_none here]; rfl⟩
  | some l =>
    rw [typeArguments, isAt, here, drop_of_some here, Member.typeArguments]
    refine ite_rel (fun opens => ?_) fun _ =>
      ⟨some (0, i), rfl, by rw [Option.map_some, drop_of_some here]⟩
    obtain ⟨found, run, behind⟩ := angleCloser?_finds ls (i + 1) 0
    rw [angleCloser?_opener regular here opens, run, ← behind]
    cases found with
    | none => exact ⟨none, rfl, rfl⟩
    | some closer =>
      obtain ⟨order, inside⟩ := angleCloser?_bounds run
      simp only [ok_bind, listLength_eq order inside]
      exact ⟨_, rfl, rfl⟩

theorem typeName_step (ls : List Lexeme) :
    Member.afterTypeName ls =
      match Member.typeArguments ls with
      | none => none
      | some (_, rest) =>
          if (Lexeme.startsWith rest "." || Lexeme.startsWith rest "::") &&
              Lexeme.startsWithWord rest.tail then
            Member.afterTypeName rest.tail.tail
          else some rest := by
  rw [Member.afterTypeName]
  split
  · rename_i arguments
    rw [arguments]
  · rename_i arguments
    rw [arguments]
    rfl
  · rename_i rest short arguments
    rw [arguments]
    rcases rest with _ | ⟨dot, _ | ⟨word, rest⟩⟩
    · rfl
    · simp [Lexeme.startsWithWord]
    · exact (short dot word rest rfl).elim

theorem afterTypeName_finds (regular : ∀ l ∈ ls, l.Regular) (i : Nat) :
    Yields (Option.map ls.drop) (afterTypeName ls i) (Member.afterTypeName (ls.drop i)) := by
  induction left : ls.length - i using Nat.strongRecOn generalizing i with
  | ind left ih =>
    obtain ⟨found, run, behind⟩ := typeArguments_found regular i
    rw [afterTypeName.eq_def, typeName_step, ← behind]
    split <;> rename_i arguments <;> cases run.symm.trans arguments
    · exact ⟨none, rfl, rfl⟩
    · rename_i n j
      simp only [dite_eq_ite, Option.map_some, List.tail_drop, ← isAt_eq, ← isWordAt_eq]
      refine ite_rel (fun joined => ih _ ?_ _ rfl) fun _ => ⟨some j, rfl, rfl⟩
      have := typeArguments_le arguments
      have := isWordAt_lt (Bool.and_eq_true_iff.mp joined).2
      omega

theorem afterTypeMarks_finds (ls : List Lexeme) (i : Nat) :
    Yields (Option.map ls.drop) (afterTypeMarks ls i) (Member.afterTypeMarks (ls.drop i)) := by
  induction left : ls.length - i using Nat.strongRecOn generalizing i with
  | ind left ih =>
    rw [afterTypeMarks.eq_def]
    split
    · rename_i here
      rw [drop_of_none here, Member.afterTypeMarks]
      exact ⟨some i, rfl, by rw [Option.map_some, drop_of_none here]⟩
    · rename_i l here
      have inside := (List.getElem?_eq_some_iff.mp here).1
      rw [drop_of_some here, Member.afterTypeMarks]
      simp only [isAt_eq]
      refine ite_rel (fun _ => ih _ (by omega) _ rfl) fun _ => ite_rel (fun opened => ?_) fun _ =>
        ⟨some i, rfl, by rw [Option.map_some, drop_of_some here]⟩
      obtain ⟨found, run, behind, bounds⟩ :=
        group_found "]" here (Bool.and_eq_true_iff.mp opened).1
      rw [← behind]
      split <;> rename_i group <;> cases run.symm.trans group
      · exact ⟨none, rfl, rfl⟩
      · exact ih _ (by have := bounds _ rfl; omega) _ rfl

theorem afterType_finds (regular : ∀ l ∈ ls, l.Regular) (i : Nat) :
    Yields (Option.map ls.drop) (afterType ls i) (Member.afterType (ls.drop i)) := by
  rw [afterType]
  cases here : ls[i]? with
  | none => exact ⟨none, rfl, by rw [drop_of_none here]; rfl⟩
  | some l =>
    rw [drop_of_some here, Member.afterType]
    refine ite_rel (fun opened => ?_) fun _ => ite_rel (fun _ => ?_) fun _ => ⟨none, rfl, rfl⟩
    · obtain ⟨found, run, behind, _⟩ := group_found ")" here opened
      rw [run, ← behind]
      cases found with
      | none => exact ⟨none, rfl, rfl⟩
      | some closer => exact afterTypeMarks_finds ls (closer + 1)
    · obtain ⟨found, run, behind⟩ := afterTypeName_finds regular (i + 1)
      rw [run, ← behind]
      cases found with
      | none => exact ⟨none, rfl, rfl⟩
      | some j => exact afterTypeMarks_finds ls j

def Name.behind (ls : List Lexeme) : Name → Member.Name
  | .named name typeParams next => .named name typeParams (ls.drop next)
  | .indexer => .indexer
  | .operator => .operator
  | .unknown => .unknown

theorem name_step (word : Lexeme) (rest : List Lexeme) :
    Member.name (word :: rest) =
      match Member.typeArguments rest with
      | none => .unknown
      | some (typeParams, after) =>
          if !Lexeme.startsWith after "." then .named word.text typeParams after
          else if Lexeme.startsWith after.tail "this" then .indexer
          else if Lexeme.startsWith after.tail "operator" then .operator
          else if Lexeme.startsWithWord after.tail then Member.name after.tail
          else .unknown := by
  rw [Member.name]
  split <;> rename_i arguments <;> rw [arguments] <;> rfl

theorem name_found (regular : ∀ l ∈ ls, l.Regular) (h : isWordAt ls i) :
    Yields (Name.behind ls) (name ls i) (Member.name (ls.drop i)) := by
  induction left : ls.length - i using Nat.strongRecOn generalizing i with
  | ind left ih =>
    have inside := isWordAt_lt h
    have here : ls[i]? = some ls[i] := List.getElem?_eq_getElem inside
    obtain ⟨found, run, behind⟩ := typeArguments_found regular (i + 1)
    rw [name.eq_def, get_of_some here, drop_of_some here, name_step, ← behind]
    simp only
    split <;> rename_i arguments <;> cases run.symm.trans arguments
    · exact ⟨.unknown, rfl, rfl⟩
    · rename_i typeParams j
      have order := typeArguments_le arguments
      simp only [dite_eq_ite, Option.map_some, List.tail_drop, ← isAt_eq, ← isWordAt_eq]
      exact ite_rel (fun _ => ⟨_, rfl, rfl⟩) fun _ => ite_rel (fun _ => ⟨_, rfl, rfl⟩) fun _ =>
        ite_rel (fun _ => ⟨_, rfl, rfl⟩) fun _ =>
        ite_rel (fun word => ih _ (by omega) word rfl) fun _ => ⟨_, rfl, rfl⟩

theorem ofName_eq (ls : List Lexeme) (name : String) (typeParams next : Nat) :
    ofName ls name typeParams next = .ok (Member.ofName name typeParams (ls.drop next)) := by
  rw [ofName]
  cases here : ls[next]? with
  | none => rw [drop_of_none here]; rfl
  | some l =>
    rw [drop_of_some here, Member.ofName]
    simp only
    split
    · rename_i opened
      rw [params_eq here opened]
      rfl
    · simp only [apply_ite Except.ok, pure_eq]

theorem ofTypedMember_eq (regular : ∀ l ∈ ls, l.Regular) :
    ofTypedMember ls = .ok (Member.ofTypedMember ls) := by
  obtain ⟨found, run, behind⟩ := afterType_finds regular 0
  rw [List.drop_zero] at behind
  rw [ofTypedMember, Member.ofTypedMember, run, ← behind]
  cases found with
  | none => rfl
  | some i =>
    simp only [ok_bind, Option.map_some, isAt_eq, pure_eq]
    split
    · rfl
    split
    · rfl
    by_cases word : isWordAt ls i
    · obtain ⟨named, read, rest⟩ := name_found regular word
      rw [isWordAt_eq] at word
      simp only [isWordAt_eq, word, Bool.not_true, Bool.false_eq_true, if_false, read, ← rest,
        ok_bind]
      cases named with
      | named name typeParams next => exact ofName_eq ls name typeParams next
      | indexer => rfl
      | operator => rfl
      | unknown => rfl
    · rw [Bool.not_eq_true] at word
      simp only [← isWordAt_eq, word, Bool.not_false, if_true]

theorem ofTypeMember_eq (regular : ∀ l ∈ ls, l.Regular) :
    ofTypeMember ls = .ok (Member.ofTypeMember ls) := by
  rcases ls with _ | ⟨word, _ | ⟨paren, rest⟩⟩
  · exact ofTypedMember_eq regular
  · rw [ofTypeMember, isAt_eq [word] 1, if_neg (by simp [Lexeme.startsWith])]
    exact ofTypedMember_eq regular
  · rw [ofTypeMember, Member.ofTypeMember]
    change (if word.isWord && paren.is "(" then _ else _) = _
    split
    · rename_i constructs
      rw [params_eq (i := 1) rfl (Bool.and_eq_true_iff.mp constructs).2]
      rfl
    · exact ofTypedMember_eq regular

theorem classify_eq (scope : Scope) (regular : scope = .typeBody → ∀ l ∈ ls, l.Regular) :
    classify scope ls = .ok (Member.classify scope ls) := by
  have typed := fun inType => ofTypeMember_eq (regular inType)
  fun_cases classify scope ls <;> simp_all only [Member.classify]

end Suffixes

end Indexed

end CSharpTidy
