import CSharpTidy.Proofs.OutlineSize
import Mathlib.Data.List.TakeWhile

/- Where reading stops. A declaration is read in the same way whatever stands behind it, as long as
   that starts neither with a semicolon nor with an equals sign. -/

namespace CSharpTidy

def Lexeme.closes (l : Lexeme) : Bool :=
  l.text == ";" || l.text == "\x7b" || l.text == "\x7d" || l.text == "]"

def Lexeme.isBrace (l : Lexeme) : Bool :=
  l.is "\x7b" || l.is "\x7d"

variable {l : Lexeme}

theorem Lexeme.closes_of_is {text : String} (h : l.is text)
    (closer : text = ";" ∨ text = "\x7b" ∨ text = "\x7d" ∨ text = "]") : l.closes := by
  simp only [Lexeme.is, Bool.and_eq_true, beq_iff_eq] at h
  simp only [closes, Bool.or_eq_true, beq_iff_eq, h.2, or_assoc]
  exact closer

namespace Outline

open Lexeme

/-- The lexemes of a text end with a closer. -/
def Closed (own : List Lexeme) : Prop :=
  ∃ l, own.getLast? = some l ∧ l.closes

variable {ls after own group : List Lexeme} {opener closer : String} {inner depth : Nat}

theorem Closed.append (h : Closed own) (front : List Lexeme) : Closed (front ++ own) := by
  obtain ⟨l, last, closes⟩ := h
  exact ⟨l, by simp [List.getLast?_append, last], closes⟩

theorem Closed.cons (h : Closed own) (l : Lexeme) : Closed (l :: own) :=
  h.append [l]

theorem Closed.nonempty (h : Closed own) : own ≠ [] := by
  rintro rfl
  obtain ⟨l, last, -⟩ := h
  cases last

theorem closed_singleton (h : l.closes) : Closed [l] :=
  ⟨l, rfl, h⟩

def Fresh (ls : List Lexeme) : Prop :=
  startsWith ls ";" = false ∧ startsWith ls "=" = false

theorem afterGroup_cut (h : afterGroup opener closer inner ls = some after) :
    ∃ group, ls = group ++ after ∧ afterGroup opener closer inner group = some [] := by
  fun_induction afterGroup opener closer inner ls with
  | case1 => cases h
  | case2 inner l ls opens ih =>
    obtain ⟨group, rfl, closed⟩ := ih h
    exact ⟨l :: group, rfl, by simp [afterGroup, opens, closed]⟩
  | case3 l ls opens closes =>
    cases h
    exact ⟨[l], rfl, by simp [afterGroup, opens, closes]⟩
  | case4 l ls opens closes inner ih | case5 inner l ls opens closes ih =>
    obtain ⟨group, rfl, closed⟩ := ih h
    exact ⟨l :: group, rfl, by simp [afterGroup, opens, closes, closed]⟩

theorem afterGroup_suffix (h : afterGroup opener closer inner ls = some after) : after <:+ ls := by
  obtain ⟨group, rfl, -⟩ := afterGroup_cut h
  exact List.suffix_append ..

theorem afterGroup_append (h : afterGroup opener closer inner group = some [])
    (rest : List Lexeme) :
    afterGroup opener closer inner (group ++ rest) = some rest := by
  induction group generalizing inner with
  | nil => cases h
  | cons l group ih =>
    simp only [List.cons_append, afterGroup] at h ⊢
    split at h
    · rw [if_pos ‹_›, ih h]
    · split at h
      · cases inner <;> simp_all
      · simp_all

theorem closed_of_afterGroup
    (closes : closer = ";" ∨ closer = "\x7b" ∨ closer = "\x7d" ∨ closer = "]")
    (h : afterGroup opener closer inner group = some []) : Closed group := by
  fun_induction afterGroup opener closer inner group with
  | case1 => cases h
  | case2 inner l ls _ ih => exact (ih h).cons l
  | case3 l ls _ found =>
    cases h
    exact closed_singleton (closes_of_is found closes)
  | case4 l ls _ _ inner ih => exact (ih h).cons l
  | case5 inner l ls _ _ ih => exact (ih h).cons l

theorem afterSemicolon_local (h : afterSemicolon ls = .ok after) :
    ∃ own, ls = own ++ after ∧ Closed own ∧ (∀ l ∈ own, l.isBrace = false) ∧
      ∀ rest, afterSemicolon (own ++ rest) = .ok rest := by
  fun_induction afterSemicolon ls with
  | case1 => cases h
  | case2 l ls semicolon =>
    cases h
    exact ⟨[l], rfl, closed_singleton (closes_of_is semicolon (by simp)),
      by simp_all [isBrace, is], by simp [afterSemicolon, semicolon]⟩
  | case3 => cases h
  | case4 l ls semicolon brace ih =>
    obtain ⟨own, rfl, closed, bare, reads⟩ := ih h
    exact ⟨l :: own, rfl, closed.cons l, List.forall_mem_cons.mpr ⟨by simpa [isBrace] using brace,
      bare⟩, by simp [afterSemicolon, semicolon, brace, reads]⟩

inductive AttributeLists : List Lexeme → Prop
  | nil : AttributeLists []
  | cons {l : Lexeme} {list ls : List Lexeme} (opens : l.is "[")
      (closed : afterGroup "[" "]" 0 list = some []) (rest : AttributeLists ls) :
      AttributeLists (l :: (list ++ ls))

theorem afterAttributes_local (h : afterAttributes ls = .ok after) :
    startsWith after "[" = false ∧ ∃ own, ls = own ++ after ∧ AttributeLists own ∧
      ∀ rest, startsWith rest "[" = false → afterAttributes (own ++ rest) = .ok rest := by
  have stays : ∀ rest, startsWith rest "[" = false → afterAttributes rest = .ok rest := by
    intro rest stops
    cases rest <;> simp_all [afterAttributes, startsWith]
  fun_induction afterAttributes ls with
  | case1 =>
    cases h
    exact ⟨rfl, [], rfl, .nil, stays⟩
  | case2 => cases h
  | case3 l ls opens after group ih =>
    obtain ⟨stops, own, rfl, lists, reads⟩ := ih h
    obtain ⟨list, rfl, closed⟩ := afterGroup_cut group
    refine ⟨stops, l :: (list ++ own), by simp, .cons opens closed lists, fun rest free => ?_⟩
    have found := afterGroup_append closed (own ++ rest)
    rw [List.cons_append, List.append_assoc, afterAttributes, if_pos opens]
    split <;> simp_all
  | case4 l ls opens =>
    cases h
    exact ⟨by simpa [startsWith] using opens, [], rfl, .nil, stays⟩

/-- The end of a header: a brace that opens a body, or a semicolon. -/
def Stops (l : Lexeme) : Prop :=
  l.isPunct ∧ (l.text = "\x7b" ∨ l.text = ";")

theorem Stops.closes (h : Stops l) : l.closes := by
  rcases h.2 with text | text <;> simp [Lexeme.closes, text]

theorem headerEnd_local (h : headerEnd depth ls = .ok (l, after)) :
    Stops l ∧ ∃ front, ls = front ++ l :: after ∧
      ∀ rest, headerEnd depth (front ++ l :: rest) = .ok (l, rest) := by
  fun_induction headerEnd depth ls
  case case1 | case6 => cases h
  case case5 =>
    cases h
    exact ⟨by simp_all [Stops], [], rfl, by simp_all [headerEnd]⟩
  case case2 ih | case3 ih | case4 ih | case7 ih =>
    obtain ⟨stops, front, rfl, found⟩ := ih h
    exact ⟨stops, _ :: front, rfl, by simp_all [headerEnd]⟩

theorem afterMember_local {initialiser : Bool} (h : afterMember depth initialiser ls = .ok after) :
    ∃ own, ls = own ++ after ∧ Closed own ∧
      ∀ rest, Fresh rest → afterMember depth initialiser (own ++ rest) = .ok rest := by
  fun_induction afterMember depth initialiser ls
  case case1 | case4 | case8 | case12 => cases h
  case case7 =>
    cases h
    refine ⟨[_], rfl, closed_singleton (by simp_all [Lexeme.closes]), fun rest _ => ?_⟩
    rw [List.cons_append, afterMember.eq_def]
    simp_all
  case case2 ih | case3 ih | case5 ih | case6 ih | case13 ih =>
    obtain ⟨own, rfl, closed, reads⟩ := ih h
    refine ⟨_ :: own, rfl, closed.cons _, fun rest fresh => ?_⟩
    have found := reads rest fresh
    rw [List.cons_append, afterMember.eq_def]
    grind
  case case10 l ls _ _ _ _ _ _ after group _ _ =>
    cases h
    obtain ⟨list, rfl, closed⟩ := afterGroup_cut group
    refine ⟨l :: list, rfl, (closed_of_afterGroup (by simp) closed).cons l, fun rest fresh => ?_⟩
    have found := afterGroup_append closed rest
    rw [List.cons_append, afterMember.eq_def]
    grind [Fresh]
  case case9 l ls _ _ _ _ _ _ after group _ _ ih | case11 l ls _ _ _ _ _ _ after group _ ih =>
    obtain ⟨own, rfl, ends, reads⟩ := ih h
    obtain ⟨list, rfl, closed⟩ := afterGroup_cut group
    refine ⟨l :: (list ++ own), by simp, (ends.append list).cons l, fun rest fresh => ?_⟩
    have found := afterGroup_append closed (own ++ rest)
    have more := reads rest fresh
    obtain ⟨m, own, rfl⟩ := List.exists_cons_of_ne_nil ends.nonempty
    rw [List.cons_append, List.append_assoc, afterMember.eq_def]
    grind [startsWith]

theorem typeParamCommas_local (stops : Stops l) (front rest rest' : List Lexeme) (inner : Nat) :
    typeParamCommas inner (front ++ l :: rest) = typeParamCommas inner (front ++ l :: rest') := by
  induction front generalizing inner with
  | nil => cases inner <;> grind [typeParamCommas, Lexeme.is, Stops, isPunct]
  | cons m front ih => cases inner <;> simp only [List.cons_append, typeParamCommas, ih]

theorem declaredKey_local (stops : Stops l) (front rest rest' : List Lexeme) :
    declaredKey (front ++ l :: rest) = declaredKey (front ++ l :: rest') := by
  have named : (l.isWord || l.is ".") = false := by grind [Stops, isPunct, isWord, Lexeme.is]
  have cut : ∀ rest, (front ++ l :: rest).takeWhile (fun l => l.isWord || l.is ".") =
        front.takeWhile (fun l => l.isWord || l.is ".") ∧
      (front ++ l :: rest).dropWhile (fun l => l.isWord || l.is ".") =
        front.dropWhile (fun l => l.isWord || l.is ".") ++ l :: rest := by
    intro rest
    induction front with
    | nil => simp [named]
    | cons m front ih =>
      cases inside : (m.isWord || m.is ".") <;>
        simp only [List.cons_append, List.takeWhile_cons, List.dropWhile_cons, inside] <;>
        simp [ih]
  simp only [declaredKey, (cut _).1, (cut _).2]
  cases front.dropWhile (fun l => l.isWord || l.is ".") with
  | nil => grind [Stops, isPunct, Lexeme.is]
  | cons m more => simp only [List.cons_append, typeParamCommas_local stops more rest rest']

theorem recordKey_local (stops : Stops l) (front rest rest' : List Lexeme) :
    recordKey (front ++ l :: rest) = recordKey (front ++ l :: rest') := by
  have same := declaredKey_local stops
  cases front with
  | nil => grind [recordKey, startsWith, Stops, Lexeme.is]
  | cons m front =>
    simp only [recordKey, startsWith, List.cons_append, List.head?_cons, List.tail_cons,
      same front rest rest']
    rw [← List.cons_append, same (m :: front) rest rest']
    rfl

theorem extent_append (own after : List Lexeme) : extent (own ++ after) after = own.length := by
  simp [extent]

section

variable {front tail after : List Lexeme} {k : Lexeme} {visibility : Visibility} {item : Item}

theorem extent_local (front : List Lexeme) (k : Lexeme) (own rest rest' : List Lexeme) :
    extent (front ++ k :: (own ++ rest)) rest = extent (front ++ k :: (own ++ rest')) rest' := by
  simp only [← List.cons_append, ← List.append_assoc, extent_append]

theorem header_local (opens : ¬ Stops k) (h : headerEnd 0 (k :: tail) = .ok (l, after)) :
    Stops l ∧ ∃ own, tail = own ++ l :: after ∧
      ∀ rest, headerEnd 0 (k :: (own ++ l :: rest)) = .ok (l, rest) := by
  obtain ⟨stops, _ | ⟨m, own⟩, whole, reads⟩ := headerEnd_local h
  · cases whole
    exact absurd stops opens
  · obtain ⟨rfl, rfl⟩ := List.cons.inj whole
    exact ⟨stops, own, rfl, reads⟩

theorem readContainer_local {kind : ContainerKind} (opens : ¬ Stops k)
    (h : readContainer kind visibility (front ++ k :: tail) (k :: tail) = .ok (item, after)) :
    ∃ own, tail = own ++ after ∧ Closed (k :: own) ∧ ∀ rest,
      readContainer kind visibility (front ++ k :: (own ++ rest)) (k :: (own ++ rest)) =
        .ok (item, rest) := by
  unfold readContainer at h
  split at h
  · cases h
  rename_i l left found
  obtain ⟨stops, own, rfl, reads⟩ := header_local opens found
  obtain rfl : left = after := by grind
  refine ⟨own ++ [l], by simp, (closed_singleton stops.closes).append (k :: own), fun rest => ?_⟩
  have size := extent_local front k (own ++ [l]) left rest
  have key := declaredKey_local stops own left rest
  simp only [List.append_assoc, List.cons_append, List.nil_append, List.tail_cons] at size key h ⊢
  rw [readContainer, reads rest]
  simp only [List.tail_cons, ← size, ← key]
  grind

theorem readWholeType_local {kind : DeclKind} {keyOf : List Lexeme → DeclKey} (opens : ¬ Stops k)
    (keys : ∀ {l : Lexeme}, Stops l → ∀ front rest rest',
      keyOf (front ++ l :: rest) = keyOf (front ++ l :: rest'))
    (h : readWholeType kind (keyOf tail) visibility (front ++ k :: tail) (k :: tail) =
      .ok (item, after)) :
    ∃ own, tail = own ++ after ∧ Closed own ∧ ∀ rest, Fresh rest →
      readWholeType kind (keyOf (own ++ rest)) visibility (front ++ k :: (own ++ rest))
        (k :: (own ++ rest)) = .ok (item, rest) := by
  unfold readWholeType at h
  simp only at h
  split at h
  · cases h
  rename_i l left found
  obtain ⟨stops, own, rfl, reads⟩ := header_local opens found
  -- Behind the header comes nothing, or a body in braces with or without a semicolon.
  suffices ends : ∃ more, left = more ++ after ∧ Closed (l :: more) ∧
      item = .member ⟨kind, visibility, keyOf (own ++ l :: left),
        extent (front ++ k :: (own ++ l :: left)) after, none⟩ ∧
      ∀ rest, Fresh rest → if l.text == "\x7b" then
        ∃ behind, afterGroup "\x7b" "\x7d" 0 (more ++ rest) = some behind ∧
          (if startsWith behind ";" then behind.tail else behind) = rest
        else more = [] by
    obtain ⟨more, rfl, closed, rfl, ends⟩ := ends
    refine ⟨own ++ l :: more, by simp, closed.append own, fun rest fresh => ?_⟩
    have size := extent_local front k (own ++ l :: more) after rest
    have key := keys stops own (more ++ after) (more ++ rest)
    have ends := ends rest fresh
    simp only [List.cons_append, List.append_assoc] at size key ⊢
    rw [readWholeType, reads (more ++ rest), ← key]
    grind
  split at h
  · split at h
    · cases h
    rename_i brace _ behind group
    obtain ⟨list, rfl, closed⟩ := afterGroup_cut group
    have ends := (closed_of_afterGroup (by simp) closed).cons l
    cases h
    by_cases semicolon : startsWith behind ";"
    · cases behind with
      | nil => cases semicolon
      | cons m behind =>
        have last : Closed [m] := closed_singleton (closes_of_is semicolon (by simp))
        refine ⟨list ++ [m], by simp [semicolon], last.append (l :: list), by simp,
          fun rest _ => ?_⟩
        rw [if_pos brace]
        exact ⟨m :: rest, by simp [afterGroup_append closed], if_pos semicolon⟩
    · refine ⟨list, by simp [semicolon], ends, by simp, fun rest fresh => ?_⟩
      rw [if_pos brace]
      exact ⟨rest, afterGroup_append closed rest, by simp [fresh.1]⟩
  · cases h
    exact ⟨[], rfl, closed_singleton stops.closes, rfl, by simp_all⟩

variable {scope : Scope}

theorem readPlainMember_local
    (h : readPlainMember scope visibility (front ++ k :: tail) (k :: tail) = .ok (item, after)) :
    ∃ own, tail = own ++ after ∧ Closed (k :: own) ∧ (own = [] → k.text = ";") ∧
      ∀ rest, Fresh rest →
      readPlainMember scope visibility (front ++ k :: (own ++ rest)) (k :: (own ++ rest)) =
        .ok (item, rest) := by
  unfold readPlainMember at h
  split at h
  · cases h
  rename_i left found
  obtain ⟨_ | ⟨m, own⟩, whole, closed, reads⟩ := afterMember_local found
  · exact absurd rfl closed.nonempty
  rw [List.cons_append] at whole
  obtain ⟨rfl, rfl⟩ := List.cons.inj whole
  cases h
  refine ⟨own, rfl, closed, fun none => ?_, fun rest fresh => ?_⟩
  · subst none
    have alone := reads [] ⟨rfl, rfl⟩
    rw [List.append_nil, afterMember.eq_def] at alone
    grind [afterMember, afterGroup]
  · have size := extent_local front k own after rest
    have taken : ∀ rest, (k :: own ++ rest).take (extent (k :: own ++ rest) rest) = k :: own :=
      fun rest => by rw [extent_append, List.take_left]
    rw [← List.cons_append, readPlainMember, reads rest fresh, ← List.cons_append]
    simp only [taken]
    simp only [List.cons_append, size]

/-- What is read behind attributes and modifiers, from the lexeme `k` on. -/
def readHead (scope : Scope) (visibility : Visibility) (ls : List Lexeme) (k : Lexeme)
    (tail : List Lexeme) : Except Fault (Item × List Lexeme) :=
  if k.is "namespace" then readContainer .namespaceBody visibility ls (k :: tail)
  else if k.is "class" then readContainer .classBody visibility ls (k :: tail)
  else if k.is "interface" then readContainer .interfaceBody visibility ls (k :: tail)
  else if k.is "enum" then readWholeType .enum (declaredKey tail) visibility ls (k :: tail)
  else if k.is "struct" then
    readWholeType (.other .struct) (declaredKey tail) visibility ls (k :: tail)
  else if k.is "record" && startsWithWord tail then
    readWholeType (.other .record) (recordKey tail) visibility ls (k :: tail)
  else readPlainMember scope visibility ls (k :: tail)

theorem readHead_local
    (h : readHead scope visibility (front ++ k :: tail) k tail = .ok (item, after)) :
    ∃ own, tail = own ++ after ∧ Closed (k :: own) ∧ ∀ rest, Fresh rest →
      readHead scope visibility (front ++ k :: (own ++ rest)) k (own ++ rest) =
        .ok (item, rest) := by
  have opens : ∀ {word : String}, k.is word → word ≠ "\x7b" → word ≠ ";" → ¬ Stops k := by
    intro word found brace semicolon stops
    rcases stops.2 with text | text <;> simp_all [Lexeme.is]
  have word : ∀ {own : List Lexeme}, own ≠ [] → ∀ rest rest',
      startsWithWord (own ++ rest) = startsWithWord (own ++ rest') := by
    intro own nonempty rest rest'
    cases own with
    | nil => exact absurd rfl nonempty
    | cons l own => rfl
  unfold readHead at h
  simp only [readHead]
  split_ifs at h ⊢ with isNamespace isClass isInterface isEnum isStruct isRecord
  · obtain ⟨own, whole, closed, reads⟩ :=
      readContainer_local (opens isNamespace (by decide) (by decide)) h
    exact ⟨own, whole, closed, fun rest _ => reads rest⟩
  · obtain ⟨own, whole, closed, reads⟩ :=
      readContainer_local (opens isClass (by decide) (by decide)) h
    exact ⟨own, whole, closed, fun rest _ => reads rest⟩
  · obtain ⟨own, whole, closed, reads⟩ :=
      readContainer_local (opens isInterface (by decide) (by decide)) h
    exact ⟨own, whole, closed, fun rest _ => reads rest⟩
  · obtain ⟨own, whole, closed, reads⟩ := readWholeType_local
      (opens isEnum (by decide) (by decide)) declaredKey_local h
    exact ⟨own, whole, closed.cons k, reads⟩
  · obtain ⟨own, whole, closed, reads⟩ := readWholeType_local
      (opens isStruct (by decide) (by decide)) declaredKey_local h
    exact ⟨own, whole, closed.cons k, reads⟩
  · have named := (Bool.and_eq_true_iff.mp isRecord).1
    obtain ⟨own, rfl, closed, reads⟩ := readWholeType_local
      (opens named (by decide) (by decide)) recordKey_local h
    refine ⟨own, rfl, closed.cons k, fun rest fresh => ?_⟩
    rw [if_pos (word closed.nonempty after rest ▸ isRecord)]
    exact reads rest fresh
  · obtain ⟨own, rfl, closed, alone, reads⟩ := readPlainMember_local h
    refine ⟨own, rfl, closed, fun rest fresh => ?_⟩
    rw [if_neg]
    · exact reads rest fresh
    · by_cases none : own = []
      · simp [Lexeme.is, alone none]
      · exact word none after rest ▸ isRecord

theorem readImport_local (h : readImport ls = .ok (item, after)) :
    ∃ own e, ls = own ++ after ∧ Closed own ∧ item = .imported e ∧
      ∀ rest, readImport (own ++ rest) = .ok (item, rest) := by
  unfold readImport at h
  split at h
  · cases h
  rename_i found
  obtain ⟨own, rfl, closed, -, reads⟩ := afterSemicolon_local found
  obtain ⟨l, own, rfl⟩ := List.exists_cons_of_ne_nil closed.nonempty
  cases h
  refine ⟨l :: own, _, rfl, closed, rfl, fun rest => ?_⟩
  rw [readImport, reads rest]
  simp only [extent_append, List.take_append_of_le_length (Nat.sub_le _ 1)]
  rfl

theorem readGlobalAttribute_local (h : readGlobalAttribute ls = .ok (item, after)) :
    ∃ own e, ls = own ++ after ∧ Closed own ∧ item = .attribute e ∧
      ∀ rest, readGlobalAttribute (own ++ rest) = .ok (item, rest) := by
  unfold readGlobalAttribute at h
  split at h
  · cases h
  rename_i found
  cases ls with
  | nil => cases found
  | cons l ls =>
    obtain ⟨own, rfl, closed⟩ := afterGroup_cut found
    cases h
    refine ⟨l :: own, _, rfl, (closed_of_afterGroup (by simp) closed).cons l, rfl, fun rest => ?_⟩
    rw [readGlobalAttribute, List.cons_append, List.tail_cons, afterGroup_append closed]
    simp only [← List.cons_append, extent_append]

theorem readMember_local (h : readMember scope ls = .ok (item, after)) :
    ∃ own, ls = own ++ after ∧ Closed own ∧
      ∀ rest, Fresh rest → readMember scope (own ++ rest) = .ok (item, rest) := by
  unfold readMember at h
  split at h
  · cases h
  rename_i unattributed found
  obtain ⟨stops, lists, rfl, -, reads⟩ := afterAttributes_local found
  have cut := List.takeWhile_append_dropWhile (p := isModifier) (l := unattributed)
  have first := List.head?_dropWhile_not isModifier unattributed
  have marked : ∀ l ∈ unattributed.takeWhile isModifier, isModifier l := fun _ =>
    List.mem_takeWhile_imp
  simp only at h
  generalize unattributed.takeWhile isModifier = marks at h cut first marked
  generalize unattributed.dropWhile isModifier = head at h cut first
  subst cut
  cases head with
  | nil => simp [startsWith, startsWithWord, readPlainMember, afterMember] at h
  | cons k tail =>
    have opened : ∀ t, readMember scope (lists ++ (marks ++ k :: t)) = readHead scope
        (Visibility.ofModifiers (marks.map Lexeme.text)) (lists ++ (marks ++ k :: t)) k t := by
      intro t
      have free : startsWith (marks ++ k :: t) "[" = false := by cases marks <;> exact stops
      have taken : (marks ++ k :: t).takeWhile isModifier = marks := by
        simp_all [List.takeWhile_append_of_pos]
      have dropped : (marks ++ k :: t).dropWhile isModifier = k :: t := by
        simp_all [List.dropWhile_append_of_pos]
      simp only [readMember, reads _ free, taken, dropped]
      rfl
    have chain : readHead scope (Visibility.ofModifiers (marks.map Lexeme.text))
        ((lists ++ marks) ++ k :: tail) k tail = .ok (item, after) := by
      rw [List.append_assoc]
      exact h
    obtain ⟨own, rfl, closed, known⟩ := readHead_local chain
    refine ⟨lists ++ (marks ++ k :: own), by simp, (closed.append marks).append lists,
      fun rest fresh => ?_⟩
    have found := known rest fresh
    simp only [List.append_assoc, List.cons_append] at found ⊢
    rw [opened, found]

end

end Outline

end CSharpTidy
