import CSharpTidy.Proofs.IndexedMember
import CSharpTidy.Tree.Parse

/- The searches through a file by the indices of its tokens. The end of the file has an index as
   well, and every index behind it is taken to it. No check fails in a search, which ends at the
   token where the search from suffix to suffix ends, and finds the same faults. -/
namespace CSharpTidy.Indexed

open Checked Outline

/-- The token at an index; there is none at the end of the file. -/
def cell (s : TokenStream) (i : Nat) : Check (Option Token) := do
  let last ← sub (s.tokens.length + 1) 1
  get (s.tokens.map some ++ [none]) (min i last)

theorem cell_eq (s : TokenStream) (i : Nat) : cell s i = .ok s.tokens[i]? := by
  rw [cell, sub_succ, ok_bind]
  apply get_of_some
  rcases Nat.lt_or_ge i s.tokens.length with inside | outside
  · rw [Nat.min_eq_left (Nat.le_of_lt inside), List.getElem?_append_left (by simpa using inside),
      List.getElem?_map, List.getElem?_eq_getElem inside]
    rfl
  · rw [Nat.min_eq_right outside, List.getElem?_append_right (by simp),
      List.getElem?_eq_none outside]
    simp

variable {s : TokenStream} {i : Nat} {t : Token}

theorem some_of_cell (h : cell s i = .ok (some t)) : s.tokens[i]? = some t :=
  Except.ok.inj ((cell_eq s i).symm.trans h)

theorem lexeme_of_some (h : s.tokens[i]? = some t) :
    (s.tokens.map Token.toLexeme)[i]? = some t.toLexeme := by
  rw [List.getElem?_map, h]
  rfl

theorem lexeme_of_cell (h : cell s i = .ok (some t)) :
    (s.tokens.map Token.toLexeme)[i]? = some t.toLexeme :=
  lexeme_of_some (some_of_cell h)

theorem none_of_cell (h : cell s i = .ok none) : s.tokens[i]? = none :=
  Except.ok.inj ((cell_eq s i).symm.trans h)

theorem lt_of_cell (h : cell s i = .ok (some t)) : i < s.tokens.length :=
  (List.getElem?_eq_some_iff.mp (some_of_cell h)).1

def cellIs (s : TokenStream) (i : Nat) (text : String) : Check Bool := do
  return (← cell s i).any (·.is text)

def cellIsWord (s : TokenStream) (i : Nat) : Check Bool := do
  return (← cell s i).any (·.isWord)

/-- The index of the token that closes the group, with `depth` groups open before index `i`. -/
def matching (s : TokenStream) (opener closer : String) (expected : Expected) (depth i : Nat) :
    Check Nat :=
  match _here : cell s i with
  | .error stop => .error stop
  | .ok none => .error (.fault (.endOfFile expected s.finish))
  | .ok (some t) =>
      if t.is opener then matching s opener closer expected (depth + 1) (i + 1)
      else if t.is closer then
        match sub depth 1 with
        | .error stop => .error stop
        | .ok depth' =>
            if depth' = 0 then .ok i else matching s opener closer expected depth' (i + 1)
      else matching s opener closer expected depth (i + 1)
termination_by s.tokens.length - i
decreasing_by
  all_goals
    have := lt_of_cell _here
    omega

theorem matching_bounds {opener closer : String} {expected : Expected} {depth j : Nat}
    (h : matching s opener closer expected depth i = .ok j) : i ≤ j ∧ j < s.tokens.length := by
  fun_induction matching s opener closer expected depth i with
  | case1 => cases h
  | case2 => cases h
  | case3 depth i t here _ ih => have := ih h; omega
  | case4 => cases h
  | case5 depth i t here =>
    cases h
    exact ⟨Nat.le_refl _, lt_of_cell here⟩
  | case6 depth i t here _ _ depth' _ _ ih => have := ih h; omega
  | case7 depth i t here _ _ ih => have := ih h; omega

def findSemicolon (s : TokenStream) (i : Nat) : Check Nat :=
  match _here : cell s i with
  | .error stop => .error stop
  | .ok none => .error (.fault (.endOfFile .semicolon s.finish))
  | .ok (some t) =>
      if t.is ";" then .ok i
      else if t.is "\x7b" || t.is "\x7d" then .error (.fault (.unexpected t.text t.position))
      else findSemicolon s (i + 1)
termination_by s.tokens.length - i
decreasing_by
  have := lt_of_cell _here
  omega

def afterAttributes (s : TokenStream) (i : Nat) : Check Nat :=
  match cellIs s i "[" with
  | .error stop => .error stop
  | .ok false => .ok i
  | .ok true =>
      match _group : matching s "[" "]" .closeBracket 0 i with
      | .error stop => .error stop
      | .ok j => afterAttributes s (j + 1)
termination_by s.tokens.length - i
decreasing_by
  have := matching_bounds _group
  omega

def headerEnd (s : TokenStream) (depth i : Nat) : Check Nat :=
  match _here : cell s i with
  | .error stop => .error stop
  | .ok none => .error (.fault (.endOfFile .bodyOrSemicolon s.finish))
  | .ok (some t) =>
      if !t.isPunct then headerEnd s depth (i + 1)
      else if t.text == "(" || t.text == "[" then headerEnd s (depth + 1) (i + 1)
      else if t.text == ")" || t.text == "]" then headerEnd s (depth - 1) (i + 1)
      else if (t.text == "\x7b" || t.text == ";") && depth == 0 then .ok i
      else if t.text == "\x7d" then .error (.fault (.unexpected t.text t.position))
      else headerEnd s depth (i + 1)
termination_by s.tokens.length - i
decreasing_by
  all_goals
    have := lt_of_cell _here
    omega

def memberEnd (s : TokenStream) (depth : Nat) (initialiser : Bool) (i : Nat) : Check Nat :=
  match _here : cell s i with
  | .error stop => .error stop
  | .ok none => .error (.fault (.endOfFile .semicolonOrBrace s.finish))
  | .ok (some t) =>
      if !t.isPunct then memberEnd s depth initialiser (i + 1)
      else if t.text == "(" || t.text == "[" then memberEnd s (depth + 1) initialiser (i + 1)
      else if t.text == ")" || t.text == "]" then
        if depth = 0 then .error (.fault (.unexpected t.text t.position))
        else
          match sub depth 1 with
          | .error stop => .error stop
          | .ok depth' => memberEnd s depth' initialiser (i + 1)
      else if (t.text == "=" || t.text == "=>") && depth == 0 then memberEnd s depth true (i + 1)
      else if t.text == ";" && depth == 0 then .ok i
      else if t.text == "\x7b" then
        match _group : matching s "\x7b" "\x7d" .closeBrace 0 i with
        | .error stop => .error stop
        | .ok close =>
            if depth == 0 && !initialiser then
              match cellIs s (close + 1) "=" with
              | .error stop => .error stop
              | .ok true => memberEnd s depth true (close + 1)
              | .ok false => .ok close
            else memberEnd s depth initialiser (close + 1)
      else if t.text == "\x7d" then .error (.fault (.unexpected t.text t.position))
      else memberEnd s depth initialiser (i + 1)
termination_by s.tokens.length - i
decreasing_by
  all_goals
    have := lt_of_cell _here
    first
    | omega
    | have := matching_bounds _group
      omega

def typeParamCommas (s : TokenStream) (depth commas i : Nat) : Check Nat :=
  match _here : cell s i with
  | .error stop => .error stop
  | .ok none => .ok commas
  | .ok (some t) =>
      if t.is "<" then typeParamCommas s (depth + 1) commas (i + 1)
      else if t.is ">" then
        match sub depth 1 with
        | .error stop => .error stop
        | .ok depth' => if depth' = 0 then .ok commas else typeParamCommas s depth' commas (i + 1)
      else if t.is "," && depth == 1 then typeParamCommas s depth (commas + 1) (i + 1)
      else if t.is "\x7b" || t.is ";" then .ok commas
      else typeParamCommas s depth commas (i + 1)
termination_by s.tokens.length - i
decreasing_by
  all_goals
    have := lt_of_cell _here
    omega

/-- The index up to which the tokens from `i` on, and before `stop`, are as `p` asks. No token
stands at the end of the file. -/
def skip (s : TokenStream) (p : Lexeme → Bool) (stop i : Nat) : Check Nat :=
  if i < stop then
    match cell s i with
    | .error stop => .error stop
    | .ok none => .ok i
    | .ok (some t) => if p t.toLexeme then skip s p stop (i + 1) else .ok i
  else .ok i
termination_by stop - i

def textAt (s : TokenStream) (i : Nat) : Check String := do
  return (← cell s i).elim "" (·.text)

def texts (s : TokenStream) (stop i : Nat) : Check (List String) :=
  if i < stop then do
    let text ← textAt s i
    let rest ← texts s stop (i + 1)
    return text :: rest
  else .ok []
termination_by stop - i

def nameFrom (s : TokenStream) (first : Nat) : Check DeclKey := do
  let stop ← skip s (fun l => l.isWord || l.is ".") s.tokens.length first
  let name := String.join (← texts s stop first)
  if ← cellIs s stop "<" then return ⟨name, (← typeParamCommas s 0 0 stop) + 1, 0⟩
  else return ⟨name, 0, 0⟩

def declaredKey (s : TokenStream) (head : Nat) : Check DeclKey := do
  let made := (← cellIs s head "record") &&
    ((← cellIs s (head + 1) "struct") || (← cellIs s (head + 1) "class"))
  nameFrom s (if made then head + 2 else head + 1)

def atImport (s : TokenStream) (i : Nat) : Check Bool := do
  if (← cellIs s i "extern") && (← cellIs s (i + 1) "alias") then return true
  let first := if ← cellIs s i "global" then i + 1 else i
  if !(← cellIs s first "using") then return false
  if (← cellIs s (first + 1) "static") || (← cellIs s (first + 1) "unsafe") then return true
  return !((← cellIs s (first + 1) "(") ||
    ((← cellIsWord s (first + 1)) && (← cellIsWord s (first + 2))))

def atGlobalAttribute (s : TokenStream) (i : Nat) : Check Bool := do
  return (← cellIs s i "[") &&
    ((← cellIs s (i + 1) "assembly") || (← cellIs s (i + 1) "module")) && (← cellIs s (i + 2) ":")

def importKind (s : TokenStream) (start : Nat) : Check ImportKind := do
  if ← cellIs s start "extern" then return .externAlias
  else if ← cellIs s start "global" then return .globalUsing
  else return .plainUsing

def importPath (s : TokenStream) (start stop : Nat) : Check String := do
  let path ← skip s (fun l => l.is "using" || l.is "alias" || l.is "static" || l.is "unsafe") stop
    (start + 1)
  let equals ← skip s (fun l => !l.is "=") stop path
  return String.join (← texts s stop (if equals < stop then equals + 1 else path))

section Suffixes

variable {s : TokenStream} {i : Nat} {t : Token}

def ahead (s : TokenStream) (i : Nat) : List Lexeme :=
  (s.tokens.map Token.toLexeme).drop i

theorem ahead_of_some (here : s.tokens[i]? = some t) :
    ahead s i = t.toLexeme :: ahead s (i + 1) :=
  drop_of_some (lexeme_of_some here)

theorem ahead_of_none (here : s.tokens[i]? = none) : ahead s i = [] :=
  drop_of_none (by rw [List.getElem?_map, here]; rfl)

theorem tail_ahead (s : TokenStream) (i : Nat) : (ahead s i).tail = ahead s (i + 1) :=
  List.tail_drop

theorem drop_ahead (s : TokenStream) (i k : Nat) : (ahead s i).drop k = ahead s (i + k) :=
  List.drop_drop

theorem startsWith_ahead (here : s.tokens[i]? = some t) (text : String) :
    Lexeme.startsWith (ahead s i) text = t.is text := by
  rw [ahead_of_some here]
  rfl

theorem cellIs_eq (s : TokenStream) (i : Nat) (text : String) :
    cellIs s i text = .ok (Lexeme.startsWith (ahead s i) text) := by
  rw [cellIs, cell_eq, ok_bind, Lexeme.startsWith, ahead, List.head?_drop, List.getElem?_map,
    Option.any_map]
  rfl

theorem cellIsWord_eq (s : TokenStream) (i : Nat) :
    cellIsWord s i = .ok (Lexeme.startsWithWord (ahead s i)) := by
  rw [cellIsWord, cell_eq, ok_bind, Lexeme.startsWithWord, ahead, List.head?_drop,
    List.getElem?_map, Option.any_map]
  rfl

variable {scan : Except Fault (List Lexeme)} {run : Check Nat} {text : String} {stop i' : Nat}

theorem token_of_cellIs (h : cellIs s i text = .ok true) :
    ∃ t, s.tokens[i]? = some t ∧ t.is text := by
  rw [cellIs, cell_eq, ok_bind] at h
  exact (Option.any_eq_true _ _).mp (Except.ok.inj h)

theorem toError_unexpected (here : s.tokens[i]? = some t) :
    (Fault.unexpected t.toLexeme (ahead s (i + 1))).toError s = .unexpected t.text t.position := by
  have inside := (List.getElem?_eq_some_iff.mp here).1
  have index : s.tokens.length - ((ahead s (i + 1)).length + 1) = i := by
    rw [ahead, List.length_drop, List.length_map]
    omega
  rw [Fault.toError, index, here]
  rfl

/-- A search by indices ends where one by suffixes does: at the last token in front of the suffix,
or with the same fault. -/
def Ends (s : TokenStream) (i : Nat) (run : Check Nat) : Except Fault (List Lexeme) → Prop
  | .error f => run = .error (.fault (f.toError s))
  | .ok rest => ∃ j, run = .ok j ∧ i ≤ j ∧ j < s.tokens.length ∧ rest = ahead s (j + 1)

theorem Ends.mono (h : Ends s i' run scan) (le : i ≤ i') : Ends s i run scan := by
  cases scan with
  | error f => exact h
  | ok rest =>
    obtain ⟨j, ran, after, inside, eq⟩ := h
    exact ⟨j, ran, Nat.le_trans le after, inside, eq⟩

theorem Ends.here (h : s.tokens[i]? = some t) : Ends s i (.ok i) (.ok (ahead s (i + 1))) :=
  ⟨i, rfl, Nat.le_refl i, (List.getElem?_eq_some_iff.mp h).1, rfl⟩

theorem Ends.unexpected (h : s.tokens[i]? = some t) :
    Ends s i (.error (.fault (.unexpected t.text t.position)))
      (.error (.unexpected t.toLexeme (ahead s (i + 1)))) := by
  rw [Ends, toError_unexpected h]

def GroupEnds (s : TokenStream) (i : Nat) (expected : Expected) (run : Check Nat) :
    Option (List Lexeme) → Prop
  | none => run = .error (.fault (.endOfFile expected s.finish))
  | some rest => ∃ j, run = .ok j ∧ i ≤ j ∧ j < s.tokens.length ∧ rest = ahead s (j + 1)

theorem matching_inner (s : TokenStream) (opener closer : String) (expected : Expected)
    (inner i first : Nat) (order : first ≤ i) :
    GroupEnds s first expected (matching s opener closer expected (inner + 1) i)
      (Lexeme.afterGroup opener closer inner (ahead s i)) := by
  induction left : s.tokens.length - i using Nat.strongRecOn generalizing inner i with
  | ind left ih =>
    rw [matching.eq_def]
    split
    · rename_i failed
      cases (cell_eq s i).symm.trans failed
    · rename_i here
      rw [ahead_of_none (none_of_cell here)]
      rfl
    · rename_i t here
      have inside := lt_of_cell here
      have next (inner) : GroupEnds s first expected
          (matching s opener closer expected (inner + 1) (i + 1))
          (Lexeme.afterGroup opener closer inner (ahead s (i + 1))) :=
        ih _ (by omega) _ _ (by omega) rfl
      rw [ahead_of_some (some_of_cell here), Lexeme.afterGroup.eq_def]
      refine ite_rel (fun _ => next _) fun _ => ite_rel (fun _ => ?_) fun _ => next _
      rw [sub_succ]
      cases inner with
      | zero => exact ⟨i, rfl, order, inside, rfl⟩
      | succ inner => exact next inner

theorem matching_ends {opener : String} (closer : String) (expected : Expected)
    (here : s.tokens[i]? = some t) (opens : t.is opener) :
    GroupEnds s (i + 1) expected (matching s opener closer expected 0 i)
      (Lexeme.afterGroup opener closer 0 (ahead s (i + 1))) := by
  rw [matching.eq_def]
  split
  · rename_i failed
    cases (cell_eq s i).symm.trans failed
  · rename_i absent
    cases (none_of_cell absent).symm.trans here
  · rename_i found
    cases (some_of_cell found).symm.trans here
    rw [if_pos opens]
    exact matching_inner s opener closer expected 0 (i + 1) (i + 1) (Nat.le_refl _)

theorem findSemicolon_ends (s : TokenStream) (i : Nat) :
    Ends s i (findSemicolon s i) (afterSemicolon (ahead s i)) := by
  induction left : s.tokens.length - i using Nat.strongRecOn generalizing i with
  | ind left ih =>
    rw [findSemicolon.eq_def]
    split
    · rename_i failed
      cases (cell_eq s i).symm.trans failed
    · rename_i here
      rw [ahead_of_none (none_of_cell here)]
      rfl
    · rename_i t here
      have inside := lt_of_cell here
      rw [ahead_of_some (some_of_cell here), afterSemicolon]
      exact ite_rel (fun _ => .here (some_of_cell here)) fun _ =>
        ite_rel (fun _ => .unexpected (some_of_cell here)) fun _ =>
          (ih _ (by omega) (i + 1) rfl).mono (Nat.le_succ i)

theorem afterAttributes_cons (l : Lexeme) (rest : List Lexeme) :
    Outline.afterAttributes (l :: rest) =
      if l.is "[" then
        match Lexeme.afterGroup "[" "]" 0 rest with
        | none => .error (.endOfFile .closeBracket)
        | some after => Outline.afterAttributes after
      else .ok (l :: rest) := by
  rw [Outline.afterAttributes]
  refine ite_congr rfl (fun _ => ?_) (fun _ => rfl)
  split <;> rename_i group <;> rw [group]

def Reaches (s : TokenStream) (i : Nat) (run : Check Nat) : Except Fault (List Lexeme) → Prop
  | .error f => run = .error (.fault (f.toError s))
  | .ok rest => ∃ j, run = .ok j ∧ i ≤ j ∧ (i ≤ s.tokens.length → j ≤ s.tokens.length) ∧
      rest = ahead s j

theorem Reaches.mono (h : Reaches s i' run scan) (le : i ≤ i') (inside : i' ≤ s.tokens.length) :
    Reaches s i run scan := by
  cases scan with
  | error f => exact h
  | ok rest =>
    obtain ⟨j, ran, after, within, eq⟩ := h
    exact ⟨j, ran, Nat.le_trans le after, fun _ => within inside, eq⟩

theorem afterAttributes_reaches (s : TokenStream) (i : Nat) :
    Reaches s i (afterAttributes s i) (Outline.afterAttributes (ahead s i)) := by
  fun_induction afterAttributes s i with
  | case1 i stop failed => cases (cellIs_eq s i "[").symm.trans failed
  | case2 i closed =>
    have unopened := Except.ok.inj ((cellIs_eq s i "[").symm.trans closed)
    have same : Outline.afterAttributes (ahead s i) = .ok (ahead s i) := by
      cases suffix : ahead s i with
      | nil => rw [Outline.afterAttributes]
      | cons l rest =>
        rw [suffix] at unopened
        have noList : l.is "[" = false := unopened
        rw [afterAttributes_cons, noList, if_neg Bool.false_ne_true]
    rw [same]
    exact ⟨i, rfl, Nat.le_refl i, id, rfl⟩
  | case3 i opened stop failed =>
    obtain ⟨t, here, opens⟩ := token_of_cellIs opened
    have group := matching_ends "]" .closeBracket here opens
    rw [ahead_of_some here, afterAttributes_cons, if_pos opens]
    rw [failed] at group
    cases scan : Lexeme.afterGroup "[" "]" 0 (ahead s (i + 1)) with
    | none => rw [scan] at group; exact group
    | some rest =>
      rw [scan] at group
      obtain ⟨j, ran, -⟩ := group
      cases ran
  | case4 i opened j closed ih =>
    obtain ⟨t, here, opens⟩ := token_of_cellIs opened
    have group := matching_ends "]" .closeBracket here opens
    rw [ahead_of_some here, afterAttributes_cons, if_pos opens]
    rw [closed] at group
    cases scan : Lexeme.afterGroup "[" "]" 0 (ahead s (i + 1)) with
    | none => rw [scan] at group; cases group
    | some rest =>
      rw [scan] at group
      obtain ⟨j, ran, order, inside, rfl⟩ := group
      cases ran
      exact ih.mono (by omega) inside

theorem afterMember_cons (depth : Nat) (initialiser : Bool) (l : Lexeme) (rest : List Lexeme) :
    afterMember depth initialiser (l :: rest) =
      if !l.isPunct then afterMember depth initialiser rest
      else if l.text == "(" || l.text == "[" then afterMember (depth + 1) initialiser rest
      else if l.text == ")" || l.text == "]" then
        match depth with
        | 0 => .error (.unexpected l rest)
        | depth + 1 => afterMember depth initialiser rest
      else if (l.text == "=" || l.text == "=>") && depth == 0 then afterMember depth true rest
      else if l.text == ";" && depth == 0 then .ok rest
      else if l.text == "\x7b" then
        match Lexeme.afterGroup "\x7b" "\x7d" 0 rest with
        | none => .error (.endOfFile .closeBrace)
        | some after =>
            if depth == 0 && !initialiser then
              if Lexeme.startsWith after "=" then afterMember depth true after else .ok after
            else afterMember depth initialiser after
      else if l.text == "\x7d" then .error (.unexpected l rest)
      else afterMember depth initialiser rest := by
  rw [afterMember.eq_def]
  refine ite_congr rfl (fun _ => rfl) fun _ => ite_congr rfl (fun _ => rfl) fun _ =>
    ite_congr rfl (fun _ => ?_) fun _ => ite_congr rfl (fun _ => rfl) fun _ =>
    ite_congr rfl (fun _ => rfl) fun _ => ite_congr rfl (fun _ => ?_) fun _ =>
    ite_congr rfl (fun _ => rfl) (fun _ => rfl)
  · cases depth <;> rfl
  · split <;> rename_i group <;> rw [group]

theorem is_of_punct {l : Lexeme} (punct : ¬ (!l.isPunct)) (h : l.text == text) : l.is text := by
  rw [Bool.not_eq_true', Bool.not_eq_false, Lexeme.isPunct] at punct
  rw [Lexeme.is, punct, h, Bool.or_true, Bool.and_true]

theorem memberEnd_ends (s : TokenStream) (depth : Nat) (initialiser : Bool) (i : Nat) :
    Ends s i (memberEnd s depth initialiser i) (afterMember depth initialiser (ahead s i)) := by
  induction left : s.tokens.length - i using Nat.strongRecOn generalizing depth initialiser i with
  | ind left ih =>
    rw [memberEnd.eq_def]
    split
    · rename_i failed
      cases (cell_eq s i).symm.trans failed
    · rename_i here
      rw [ahead_of_none (none_of_cell here), afterMember.eq_def]
      rfl
    · rename_i t here
      have inside := lt_of_cell here
      have next (depth initialiser j) (order : i < j) : Ends s i (memberEnd s depth initialiser j)
          (afterMember depth initialiser (ahead s j)) :=
        (ih _ (by omega) _ _ j rfl).mono (Nat.le_of_lt order)
      have onward (depth initialiser) := next depth initialiser (i + 1) (Nat.lt_succ_self i)
      rw [ahead_of_some (some_of_cell here), afterMember_cons]
      refine ite_rel (fun _ => onward _ _) fun punct => ite_rel (fun _ => onward _ _) fun _ =>
        ite_rel (fun _ => ?_) fun _ => ite_rel (fun _ => onward _ _) fun _ =>
        ite_rel (fun _ => .here (some_of_cell here)) fun _ => ite_rel (fun brace => ?_) fun _ =>
        ite_rel (fun _ => .unexpected (some_of_cell here)) fun _ => onward _ _
      · cases depth with
        | zero => exact .unexpected (some_of_cell here)
        | succ depth =>
          rw [if_neg (Nat.succ_ne_zero depth), sub_succ]
          exact onward _ _
      · have group := matching_ends "\x7d" .closeBrace (some_of_cell here) (is_of_punct punct brace)
        cases scan : Lexeme.afterGroup "\x7b" "\x7d" 0 (ahead s (i + 1)) with
        | none =>
          rw [scan] at group
          split <;> rename_i ran <;> cases group.symm.trans ran
          rfl
        | some rest =>
          rw [scan] at group
          obtain ⟨close, closed, order, within, rfl⟩ := group
          split <;> rename_i ran <;> cases closed.symm.trans ran
          refine ite_rel (fun _ => ?_) fun _ => next _ _ _ (by omega)
          rw [cellIs_eq]
          cases Lexeme.startsWith (ahead s (close + 1)) "=" with
          | true => exact next _ _ _ (by omega)
          | false => exact ⟨close, rfl, by omega, within, rfl⟩

def HeaderEnds (s : TokenStream) (i : Nat) (run : Check Nat) :
    Except Fault (Lexeme × List Lexeme) → Prop
  | .error f => run = .error (.fault (f.toError s))
  | .ok (l, rest) => ∃ j t, run = .ok j ∧ i ≤ j ∧ s.tokens[j]? = some t ∧ l = t.toLexeme ∧
      rest = ahead s (j + 1) ∧ t.is "\x7b" = (t.text == "\x7b") ∧ t.is ";" = !(t.text == "\x7b")

theorem HeaderEnds.mono {scan : Except Fault (Lexeme × List Lexeme)} (h : HeaderEnds s i' run scan)
    (le : i ≤ i') : HeaderEnds s i run scan := by
  cases scan with
  | error f => exact h
  | ok found =>
    obtain ⟨j, t, ran, after, rest⟩ := h
    exact ⟨j, t, ran, Nat.le_trans le after, rest⟩

theorem headerEnd_ends (s : TokenStream) (depth i : Nat) :
    HeaderEnds s i (headerEnd s depth i) (Outline.headerEnd depth (ahead s i)) := by
  induction left : s.tokens.length - i using Nat.strongRecOn generalizing depth i with
  | ind left ih =>
    rw [headerEnd.eq_def]
    split
    · rename_i failed
      cases (cell_eq s i).symm.trans failed
    · rename_i here
      rw [ahead_of_none (none_of_cell here)]
      rfl
    · rename_i t here
      have inside := lt_of_cell here
      have onward (depth) : HeaderEnds s i (headerEnd s depth (i + 1))
          (Outline.headerEnd depth (ahead s (i + 1))) :=
        (ih _ (by omega) depth (i + 1) rfl).mono (Nat.le_succ i)
      rw [ahead_of_some (some_of_cell here), Outline.headerEnd]
      refine ite_rel (fun _ => onward _) fun punct => ite_rel (fun _ => onward _) fun _ =>
        ite_rel (fun _ => onward _) fun _ => ite_rel (fun ends => ?_) fun _ =>
        ite_rel (fun _ => ?_) fun _ => onward _
      · refine ⟨i, t, rfl, Nat.le_refl i, some_of_cell here, rfl, rfl, ?_⟩
        rcases Bool.or_eq_true_iff.mp (Bool.and_eq_true_iff.mp ends).1 with brace | semicolon
        · rw [is_of_punct punct brace, brace]
          simp [Lexeme.is, beq_iff_eq.mp brace]
        · rw [is_of_punct punct semicolon]
          simp [Lexeme.is, beq_iff_eq.mp semicolon]
      · rw [HeaderEnds, toError_unexpected (some_of_cell here)]

def Counts (commas : Nat) (run : Check Nat) (more : Nat) : Prop :=
  run = .ok (commas + more)

theorem typeParamCommas_counts (s : TokenStream) (inner commas i : Nat) :
    Counts commas (typeParamCommas s (inner + 1) commas i)
      (Outline.typeParamCommas inner (ahead s i)) := by
  induction left : s.tokens.length - i using Nat.strongRecOn generalizing inner commas i with
  | ind left ih =>
    rw [typeParamCommas.eq_def]
    split
    · rename_i failed
      cases (cell_eq s i).symm.trans failed
    · rename_i here
      rw [ahead_of_none (none_of_cell here)]
      rfl
    · rename_i t here
      have inside := lt_of_cell here
      have onward (inner commas) := ih _ (by omega) inner commas (i + 1) rfl
      rw [ahead_of_some (some_of_cell here), Outline.typeParamCommas.eq_def,
        show (inner + 1 == 1) = (inner == 0) by simp]
      refine ite_rel (fun _ => onward _ _) fun _ => ite_rel (fun _ => ?_) fun _ =>
        ite_rel (fun _ => ?_) fun _ => ite_rel (fun _ => rfl) fun _ => onward _ _
      · rw [sub_succ]
        cases inner with
        | zero => rfl
        | succ inner => exact onward inner commas
      · rw [Counts, onward]
        congr 1
        omega

theorem skip_eq (s : TokenStream) (p : Lexeme → Bool) (i : Nat) (inside : stop ≤ s.tokens.length) :
    ∃ j, skip s p stop i = .ok j ∧ i ≤ j ∧ (i ≤ stop → j ≤ stop) ∧
      (s.tokens.map Token.toLexeme).extract i j =
        ((s.tokens.map Token.toLexeme).extract i stop).takeWhile p ∧
      (s.tokens.map Token.toLexeme).extract j stop =
        ((s.tokens.map Token.toLexeme).extract i stop).dropWhile p := by
  fun_induction skip s p stop i with
  | case1 i before stop failed => cases (cell_eq s i).symm.trans failed
  | case2 i before here =>
    have := List.getElem?_eq_none_iff.mp (none_of_cell here)
    omega
  | case3 i before t here passes ih =>
    obtain ⟨j, ran, order, last, taken, dropped⟩ := ih
    refine ⟨j, ran, by omega, fun _ => last before, ?_, ?_⟩
    · rw [extract_of_some (lexeme_of_cell here) before, List.takeWhile_cons_of_pos passes, ← taken,
        extract_of_some (lexeme_of_cell here) order]
    · rw [extract_of_some (lexeme_of_cell here) before, List.dropWhile_cons_of_pos passes, dropped]
  | case4 i before t here stays =>
    refine ⟨i, rfl, Nat.le_refl i, id, ?_, ?_⟩
    · rw [extract_of_some (lexeme_of_cell here) before, List.takeWhile_cons_of_neg stays,
        extract_of_le (Nat.le_refl i)]
    · rw [extract_of_some (lexeme_of_cell here) before, List.dropWhile_cons_of_neg stays]
  | case5 i beyond =>
    refine ⟨i, rfl, Nat.le_refl i, id, ?_, ?_⟩
    · rw [extract_of_le (Nat.le_refl i), extract_of_le (Nat.le_of_not_lt beyond), List.takeWhile_nil]
    · rw [extract_of_le (Nat.le_of_not_lt beyond), List.dropWhile_nil]

theorem textAt_eq (here : s.tokens[i]? = some t) : textAt s i = .ok t.text := by
  rw [textAt, cell_eq, here]
  rfl

theorem texts_eq (s : TokenStream) (i : Nat) (inside : stop ≤ s.tokens.length) :
    texts s stop i = .ok (((s.tokens.map Token.toLexeme).extract i stop).map Lexeme.text) := by
  fun_induction texts s stop i with
  | case1 i before ih =>
    obtain ⟨t, here⟩ : ∃ t, s.tokens[i]? = some t :=
      ⟨_, List.getElem?_eq_getElem (by omega)⟩
    rw [textAt_eq here, ok_bind, ih, ok_bind, extract_of_some (lexeme_of_some here) before]
    rfl
  | case2 i beyond =>
    rw [extract_of_le (Nat.le_of_not_lt beyond)]
    rfl

theorem extract_ahead (s : TokenStream) (i : Nat) :
    (s.tokens.map Token.toLexeme).extract i s.tokens.length = ahead s i := by
  rw [List.extract_eq_take_drop, ahead]
  exact List.take_of_length_le (by simp)

theorem typeParamCommas_opener (commas : Nat) (h : cellIs s i "<" = .ok true) :
    typeParamCommas s 0 commas i = .ok (commas + Outline.typeParamCommas 0 (ahead s (i + 1))) := by
  obtain ⟨t, here, opens⟩ := token_of_cellIs h
  rw [typeParamCommas.eq_def]
  split
  · rename_i failed
    cases (cell_eq s i).symm.trans failed
  · rename_i absent
    cases (none_of_cell absent).symm.trans here
  · rename_i found
    cases (some_of_cell found).symm.trans here
    rw [if_pos opens]
    exact typeParamCommas_counts s 0 commas (i + 1)

theorem nameFrom_eq (s : TokenStream) {first : Nat} (inside : first ≤ s.tokens.length) :
    nameFrom s first = .ok (Outline.declaredKey (ahead s first)) := by
  obtain ⟨stop, ran, order, last, taken, dropped⟩ :=
    skip_eq s (fun l => l.isWord || l.is ".") first (Nat.le_refl _)
  rw [extract_ahead] at taken
  rw [extract_ahead, extract_ahead] at dropped
  rw [nameFrom, ran, ok_bind, texts_eq s first (last inside), ok_bind, taken, Outline.declaredKey,
    ← dropped]
  cases opened : cellIs s stop "<" with
  | error e => cases (cellIs_eq s stop "<").symm.trans opened
  | ok opens =>
    cases opens with
    | true =>
      obtain ⟨t, here, opener⟩ := token_of_cellIs opened
      rw [ahead_of_some here, typeParamCommas_opener 0 opened]
      simp only [ok_bind, if_true, opener, Nat.zero_add, pure_eq]
      rfl
    | false =>
      have closed := Except.ok.inj ((cellIs_eq s stop "<").symm.trans opened)
      cases suffix : ahead s stop with
      | nil => rfl
      | cons l rest =>
        have noOpener : l.is "<" = false := by rwa [suffix] at closed
        simp only [ok_bind, Bool.false_eq_true, if_false, noOpener, pure_eq]
        rfl

theorem lt_of_startsWith (h : Lexeme.startsWith (ahead s i) text) : i < s.tokens.length := by
  rw [← Except.ok.injEq, ← cellIs_eq] at h
  obtain ⟨t, here, _⟩ := token_of_cellIs h
  exact (List.getElem?_eq_some_iff.mp here).1

theorem declaredKey_eq (here : s.tokens[i]? = some t) :
    declaredKey s i =
      .ok (if t.is "record" then recordKey (ahead s (i + 1))
        else Outline.declaredKey (ahead s (i + 1))) := by
  have inside := (List.getElem?_eq_some_iff.mp here).1
  simp only [declaredKey, cellIs_eq, ok_bind, startsWith_ahead here, recordKey, tail_ahead]
  cases t.is "record" with
  | false => exact nameFrom_eq s inside
  | true =>
    cases made : Lexeme.startsWith (ahead s (i + 1)) "struct" ||
        Lexeme.startsWith (ahead s (i + 1)) "class" with
    | false => exact nameFrom_eq s inside
    | true =>
      have further : i + 1 < s.tokens.length :=
        (Bool.or_eq_true_iff.mp made).elim lt_of_startsWith lt_of_startsWith
      exact nameFrom_eq s further

theorem atImport_eq (s : TokenStream) (i : Nat) :
    atImport s i = .ok (startsImport (ahead s i)) := by
  simp only [atImport, cellIs_eq, cellIsWord_eq, ok_bind, pure_eq, startsImport, startsUsing,
    tail_ahead]
  rw [← apply_ite (ahead s)]
  generalize (if Lexeme.startsWith (ahead s i) "global" then i + 1 else i) = first
  simp only [tail_ahead]
  split
  · rename_i external
    rw [external, Bool.true_or]
  · rename_i noAlias
    rw [Bool.not_eq_true] at noAlias
    rw [noAlias, Bool.false_or]
    split
    · rename_i noUsing
      rw [Bool.not_eq_true'] at noUsing
      rw [noUsing, Bool.false_and]
    · rename_i isUsing
      rw [Bool.not_eq_true', Bool.not_eq_false] at isUsing
      rw [isUsing, Bool.true_and]
      split
      · rename_i marked
        rw [marked, Bool.true_or]
      · rename_i unmarked
        rw [Bool.not_eq_true] at unmarked
        rw [unmarked, Bool.false_or]

theorem atGlobalAttribute_eq (s : TokenStream) (i : Nat) :
    atGlobalAttribute s i = .ok (startsGlobalAttribute (ahead s i)) := by
  simp only [atGlobalAttribute, cellIs_eq, ok_bind, pure_eq, startsGlobalAttribute, tail_ahead]

theorem importKind_eq (s : TokenStream) (i : Nat) :
    importKind s i = .ok (Outline.importKind (ahead s i)) := by
  simp only [importKind, cellIs_eq, ok_bind, pure_eq, Outline.importKind, apply_ite Except.ok]

theorem importPath_eq (s : TokenStream) (start : Nat) (inside : stop ≤ s.tokens.length) :
    importPath s start stop =
      .ok (Outline.importPath ((s.tokens.map Token.toLexeme).extract (start + 1) stop)) := by
  obtain ⟨path, ran, _, _, _, keywords⟩ := skip_eq s
    (fun l => l.is "using" || l.is "alias" || l.is "static" || l.is "unsafe") (start + 1) inside
  obtain ⟨equals, found, _, _, _, behind⟩ := skip_eq s (fun l => !l.is "=") path inside
  rw [importPath, ran, ok_bind, found, ok_bind, texts_eq s _ inside, ok_bind, Outline.importPath,
    ← keywords, ← behind]
  split
  · rename_i aliased
    rw [extract_of_some (List.getElem?_eq_getElem (by simp; omega)) aliased]
    rfl
  · rename_i plain
    rw [extract_of_le (Nat.le_of_not_lt plain)]
    rfl

end Suffixes

end CSharpTidy.Indexed
