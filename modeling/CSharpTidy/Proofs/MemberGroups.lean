import CSharpTidy.Proofs.ReadParts

/- The members of a class or interface, told by their lexemes. Lexemes that are grouped as the
   grammar of members asks are read group by group: each group becomes one member. -/
namespace CSharpTidy

def Lexeme.mark (text : String) : Lexeme :=
  ⟨.punct, text⟩

theorem Lexeme.is_mark (text other : String) : (mark text).is other = (text == other) := by
  simp [mark, is]

abbrev Brackets := List (String × String)

namespace Brackets

def square : Brackets := [("[", "]")]

def round : Brackets := [("(", ")"), ("[", "]")]

def all : Brackets := [("(", ")"), ("[", "]"), ("\x7b", "\x7d")]

end Brackets

/-- Lexemes in which every bracket is closed by its partner. Those outside of all brackets are
`free`. -/
inductive Bracketed (pairs : Brackets) : (Lexeme → Prop) → List Lexeme → Prop
  | nil {free : Lexeme → Prop} : Bracketed pairs free []
  | plain {free : Lexeme → Prop} {l : Lexeme} {ls : List Lexeme}
      (unbracketed : ∀ p ∈ pairs, l.is p.1 = false ∧ l.is p.2 = false) (isFree : free l)
      (rest : Bracketed pairs free ls) : Bracketed pairs free (l :: ls)
  | group {free : Lexeme → Prop} {p : String × String} {inner ls : List Lexeme}
      (pair : p ∈ pairs) (inside : Bracketed pairs (fun _ => True) inner)
      (rest : Bracketed pairs free ls) :
      Bracketed pairs free (.mark p.1 :: (inner ++ .mark p.2 :: ls))

variable {rest ls body core : List Lexeme} {free : Lexeme → Prop} {scope : Scope} {l : Lexeme}

namespace Lexeme

theorem afterGroup_bracketed {pairs : Brackets} {p : String × String} (pair : p ∈ pairs)
    (apart : ∀ q ∈ pairs, q = p ∨ (q.1 ≠ p.1 ∧ q.1 ≠ p.2 ∧ q.2 ≠ p.1 ∧ q.2 ≠ p.2))
    (distinct : p.1 ≠ p.2) (h : Bracketed pairs free body) (inner : Nat) (rest : List Lexeme) :
    afterGroup p.1 p.2 inner (body ++ rest) = afterGroup p.1 p.2 inner rest := by
  induction h generalizing inner rest with
  | nil => rfl
  | plain unbracketed _ _ ih =>
    obtain ⟨opener, closer⟩ := unbracketed p pair
    simp [afterGroup, opener, closer, ih]
  | @group _ q body ls pair' _ _ ihInside ihRest =>
    simp only [List.cons_append, List.append_assoc]
    obtain rfl | ⟨h₁, h₂, h₃, h₄⟩ := apart q pair'
    · simp [afterGroup, is_mark, distinct.symm, ihInside, ihRest]
    · simp [afterGroup, is_mark, h₁, h₂, h₃, h₄, ihInside, ihRest]

theorem afterGroup_square (h : Bracketed .square free body) (rest : List Lexeme) :
    afterGroup "[" "]" 0 (body ++ mark "]" :: rest) = some rest := by
  have passed := afterGroup_bracketed (p := ("[", "]")) (by decide) (by decide) (by decide) h 0
    (mark "]" :: rest)
  simpa [afterGroup, is_mark] using passed

theorem afterGroup_braces (h : Bracketed .all free body) (rest : List Lexeme) :
    afterGroup "\x7b" "\x7d" 0 (body ++ mark "\x7d" :: rest) = some rest := by
  have passed := afterGroup_bracketed (p := ("\x7b", "\x7d")) (by decide) (by decide) (by decide)
    h 0 (mark "\x7d" :: rest)
  simpa [afterGroup, is_mark] using passed

theorem text_ne_of_is {text : String} (punct : l.isPunct) (h : l.is text = false) :
    (l.text == text) = false := by
  have kind : (l.kind == .punct) = true := punct
  simpa [is, kind] using h

end Lexeme

namespace Outline

open Lexeme

variable {initialiser : Bool} {depth : Nat}

theorem afterMember_plain (brackets : ∀ p ∈ Brackets.all, l.is p.1 = false ∧ l.is p.2 = false)
    (outside : depth = 0 → l.is ";" = false ∧
      (initialiser = false → l.is "=" = false ∧ l.is "=>" = false)) :
    afterMember depth initialiser (l :: rest) = afterMember depth initialiser rest := by
  rw [afterMember.eq_def]
  by_cases punct : l.isPunct
  · simp only [Brackets.all, List.forall_mem_cons] at brackets
    obtain ⟨⟨open₁, close₁⟩, ⟨open₂, close₂⟩, ⟨open₃, close₃⟩, -⟩ := brackets
    simp only [punct, text_ne_of_is punct open₁, text_ne_of_is punct close₁,
      text_ne_of_is punct open₂, text_ne_of_is punct close₂, text_ne_of_is punct open₃,
      text_ne_of_is punct close₃, Bool.not_true, Bool.false_eq_true, Bool.or_self, if_false]
    cases depth with
    | succ depth => simp
    | zero =>
      obtain ⟨semicolon, equals⟩ := outside rfl
      cases initialiser with
      | true => simp [text_ne_of_is punct semicolon]
      | false =>
        obtain ⟨equals, arrow⟩ := equals rfl
        simp [text_ne_of_is punct semicolon, text_ne_of_is punct equals,
          text_ne_of_is punct arrow]
  · simp [punct]

theorem afterMember_braces (h : Bracketed .all free body) :
    afterMember depth initialiser (mark "\x7b" :: (body ++ mark "\x7d" :: rest)) =
      if depth = 0 ∧ initialiser = false then
        if startsWith rest "=" then afterMember depth true rest else .ok rest
      else afterMember depth initialiser rest := by
  have group := afterGroup_braces h rest
  rw [afterMember.eq_def]
  simp only [isPunct, mark, BEq.rfl, Bool.not_true, Bool.false_eq_true, ↓reduceIte,
    String.reduceBEq, Bool.or_self, Bool.false_and, Bool.and_eq_true, beq_iff_eq,
    Bool.not_eq_eq_eq_not] at group ⊢
  split
  · rename_i unclosed
    cases group.symm.trans unclosed
  · rename_i after closed
    obtain rfl := Option.some.inj (group.symm.trans closed)
    rfl

theorem afterMember_round {p : String × String} (pair : p ∈ Brackets.round)
    (inside : ∀ rest, afterMember (depth + 1) initialiser (body ++ rest) =
      afterMember (depth + 1) initialiser rest) :
    afterMember depth initialiser (mark p.1 :: (body ++ mark p.2 :: rest)) =
      afterMember depth initialiser rest := by
  have opened : afterMember depth initialiser (mark p.1 :: (body ++ mark p.2 :: rest)) =
      afterMember (depth + 1) initialiser (body ++ mark p.2 :: rest) := by
    rw [afterMember.eq_def]
    simp only [Brackets.round, List.mem_cons, List.not_mem_nil, or_false] at pair
    obtain rfl | rfl := pair <;> simp [mark, isPunct]
  rw [opened, inside, afterMember.eq_def]
  simp only [Brackets.round, List.mem_cons, List.not_mem_nil, or_false] at pair
  obtain rfl | rfl := pair <;> simp [mark, isPunct]

theorem afterMember_head (h : Bracketed .round free ls)
    (braceless : ∀ l ∈ ls, l.is "\x7b" = false ∧ l.is "\x7d" = false)
    (outside : depth = 0 → ∀ l, free l → l.is ";" = false ∧ l.is "=" = false ∧ l.is "=>" = false)
    (rest : List Lexeme) :
    afterMember depth initialiser (ls ++ rest) = afterMember depth initialiser rest := by
  induction h generalizing depth rest with
  | nil => rfl
  | @plain _ l _ unbracketed isFree _ ih =>
    rw [List.forall_mem_cons] at braceless
    have brackets : ∀ p ∈ Brackets.all, l.is p.1 = false ∧ l.is p.2 = false := by
      simp only [Brackets.round, Brackets.all, List.forall_mem_cons] at unbracketed ⊢
      exact ⟨unbracketed.1, unbracketed.2.1, braceless.1, by simp⟩
    rw [List.cons_append, afterMember_plain brackets, ih braceless.2 outside]
    intro depth
    obtain ⟨semicolon, equals, arrow⟩ := outside depth l isFree
    exact ⟨semicolon, fun _ => ⟨equals, arrow⟩⟩
  | @group _ p inner ls pair _ _ ihInside ihRest =>
    simp only [List.forall_mem_cons, List.forall_mem_append] at braceless
    obtain ⟨-, braceless₁, -, braceless₂⟩ := braceless
    rw [List.cons_append, List.append_assoc, List.cons_append, afterMember_round pair,
      ihRest braceless₂ outside]
    exact ihInside braceless₁ (by simp)

theorem afterMember_initialiser (h : Bracketed .all free ls)
    (within : depth = 0 → initialiser = true) (outside : depth = 0 → ∀ l, free l → l.is ";" = false)
    (rest : List Lexeme) :
    afterMember depth initialiser (ls ++ rest) = afterMember depth initialiser rest := by
  induction h generalizing depth rest with
  | nil => rfl
  | @plain _ l _ unbracketed isFree _ ih =>
    rw [List.cons_append, afterMember_plain unbracketed, ih within outside]
    intro depth
    refine ⟨outside depth l isFree, fun none => ?_⟩
    rw [within depth] at none
    cases none
  | @group _ p inner ls pair inside _ ihInside ihRest =>
    rw [List.cons_append, List.append_assoc, List.cons_append]
    have kinds : p ∈ Brackets.round ∨ p = ("\x7b", "\x7d") := by
      simpa [Brackets.all, Brackets.round, or_assoc] using pair
    obtain round | rfl := kinds
    · rw [afterMember_round round, ihRest within outside]
      exact ihInside (by simp) (by simp)
    · rw [afterMember_braces inside, if_neg, ihRest within outside]
      rintro ⟨zero, none⟩
      rw [within zero] at none
      cases none

theorem afterMember_semicolon (initialiser : Bool) (rest : List Lexeme) :
    afterMember 0 initialiser (mark ";" :: rest) = .ok rest := by
  rw [afterMember.eq_def]
  simp [mark, isPunct]

theorem afterMember_equals {text : String} (h : text = "=" ∨ text = "=>") (initialiser : Bool)
    (rest : List Lexeme) :
    afterMember 0 initialiser (mark text :: rest) = afterMember 0 true rest := by
  rw [afterMember.eq_def]
  obtain rfl | rfl := h <;> simp [mark, isPunct]

end Outline

/-- What stands in front of the body or the initialiser of a member: bracketed lexemes without
braces, and without a semicolon or an initialiser outside of the brackets. -/
structure MemberHead (ls : List Lexeme) : Prop where
  nonempty : ls ≠ []
  bracketed : Bracketed .round
    (fun l => l.is ";" = false ∧ l.is "=" = false ∧ l.is "=>" = false) ls
  braceless : ∀ l ∈ ls, l.is "\x7b" = false ∧ l.is "\x7d" = false

inductive MemberCore : List Lexeme → Prop
  | body {head body : List Lexeme} (h : MemberHead head) (b : Bracketed .all (fun _ => True) body) :
      MemberCore (head ++ .mark "\x7b" :: (body ++ [.mark "\x7d"]))
  | bare {head : List Lexeme} (h : MemberHead head) : MemberCore (head ++ [.mark ";"])
  | initialised {head value : List Lexeme} {equals : String} (h : MemberHead head)
      (e : equals = "=" ∨ equals = "=>") (v : Bracketed .all (fun l => l.is ";" = false) value) :
      MemberCore (head ++ .mark equals :: (value ++ [.mark ";"]))
  | initialisedBody {head body value : List Lexeme} (h : MemberHead head)
      (b : Bracketed .all (fun _ => True) body)
      (v : Bracketed .all (fun l => l.is ";" = false) value) :
      MemberCore (head ++ .mark "\x7b" :: (body ++ .mark "\x7d" :: .mark "=" ::
        (value ++ [.mark ";"])))

namespace Outline

open Lexeme

theorem afterMember_memberHead {head : List Lexeme} (h : MemberHead head) (rest : List Lexeme) :
    afterMember 0 false (head ++ rest) = afterMember 0 false rest :=
  afterMember_head h.bracketed h.braceless (fun _ _ free => free) rest

theorem afterMember_value {value : List Lexeme}
    (h : Bracketed .all (fun l => l.is ";" = false) value) (rest : List Lexeme) :
    afterMember 0 true (value ++ mark ";" :: rest) = .ok rest := by
  rw [afterMember_initialiser h (fun _ => rfl) fun _ _ free => free, afterMember_semicolon]

/-- A member ends with its last lexeme, unless an initialiser follows. -/
theorem afterMember_core (h : MemberCore core) (ends : startsWith rest "=" = false) :
    afterMember 0 false (core ++ rest) = .ok rest := by
  cases h with
  | body h b =>
    simp only [List.append_assoc, List.cons_append, List.nil_append]
    rw [afterMember_memberHead h, afterMember_braces b]
    simp [ends]
  | bare h =>
    rw [List.append_assoc, afterMember_memberHead h]
    exact afterMember_semicolon false rest
  | initialised h e v =>
    simp only [List.append_assoc, List.cons_append, List.nil_append]
    rw [afterMember_memberHead h, afterMember_equals e, afterMember_value v]
  | @initialisedBody head body value h b v =>
    have equals : startsWith (mark "=" :: (value ++ mark ";" :: rest)) "=" = true := by
      simp [startsWith, is_mark]
    simp only [List.append_assoc, List.cons_append, List.nil_append]
    rw [afterMember_memberHead h, afterMember_braces b, if_pos ⟨rfl, rfl⟩, if_pos equals,
      afterMember_equals (.inl rfl), afterMember_value v]

end Outline

/-- How the core of a member starts: what else may stand in front of a member, and what a type or
namespace starts with, does not. -/
structure MemberStart (core : List Lexeme) : Prop where
  unattributed : Lexeme.startsWith core "[" = false
  unmodified : core.head?.any Lexeme.isModifier = false
  untyped : ∀ keyword ∈ ["namespace", "class", "interface", "enum", "struct"],
    Lexeme.startsWith core keyword = false
  unrecorded : (Lexeme.startsWith core "record" && Lexeme.startsWithWord core.tail) = false

inductive AttributeList : List Lexeme → Prop
  | intro {inner : List Lexeme} (h : Bracketed .square (fun _ => True) inner) :
      AttributeList (.mark "[" :: (inner ++ [.mark "]"]))

inductive MemberGroup : List Lexeme → Prop
  | intro {attributes : List (List Lexeme)} {marks core : List Lexeme}
      (lists : ∀ a ∈ attributes, AttributeList a) (modified : ∀ m ∈ marks, m.isModifier)
      (start : MemberStart core) (shape : MemberCore core) :
      MemberGroup (attributes.flatten ++ (marks ++ core))

def Lexeme.startsMember (ls : List Lexeme) : Bool :=
  ls.head?.any fun l => !l.is "\x7d" && !l.is "="

theorem MemberHead.starts {head : List Lexeme} (h : MemberHead head) :
    Lexeme.startsMember head := by
  obtain ⟨nonempty, bracketed, braceless⟩ := h
  cases bracketed with
  | nil => exact absurd rfl nonempty
  | plain _ free _ =>
    have brace := (braceless _ List.mem_cons_self).2
    simp [Lexeme.startsMember, brace, free.2.1]
  | @group _ p _ _ pair =>
    simp only [Brackets.round, List.mem_cons, List.not_mem_nil, or_false] at pair
    obtain rfl | rfl := pair <;> simp [Lexeme.startsMember, Lexeme.is_mark]

theorem Lexeme.startsMember_append (h : startsMember ls) (rest : List Lexeme) :
    startsMember (ls ++ rest) := by
  cases ls with
  | nil => cases h
  | cons l ls => exact h

theorem MemberCore.starts (h : MemberCore core) : Lexeme.startsMember core := by
  cases h with
  | body h | bare h | initialised h | initialisedBody h =>
    exact Lexeme.startsMember_append h.starts _

theorem MemberCore.exists_two (h : MemberCore core) :
    ∃ first second rest, core = first :: second :: rest := by
  have two : ∀ {head behind : List Lexeme} {l : Lexeme}, MemberHead head →
      ∃ first second rest, head ++ l :: behind = first :: second :: rest := by
    intro head behind l h
    obtain ⟨nonempty, -, -⟩ := h
    rcases head with - | ⟨first, - | ⟨second, rest⟩⟩
    · exact absurd rfl nonempty
    · exact ⟨first, l, behind, rfl⟩
    · exact ⟨first, second, rest ++ l :: behind, rfl⟩
  cases h with
  | body h | bare h | initialised h | initialisedBody h => exact two h

theorem Lexeme.startsMember_of_isModifier (h : l.isModifier) (rest : List Lexeme) :
    startsMember (l :: rest) := by
  have apart : ∀ text ∈ modifiers, text ≠ "\x7d" ∧ text ≠ "=" := by decide
  simp only [isModifier, Bool.and_eq_true, List.contains_eq_mem, decide_eq_true_eq] at h
  obtain ⟨brace, equals⟩ := apart l.text h.2
  simp [startsMember, is, brace, equals]

theorem MemberGroup.starts {group : List Lexeme} (h : MemberGroup group) :
    Lexeme.startsMember group := by
  obtain ⟨lists, modified, -, shape⟩ := h
  rename_i attributes marks core
  cases attributes with
  | cons a attributes =>
    obtain ⟨-⟩ := lists a (by simp)
    simp [Lexeme.startsMember, Lexeme.is_mark]
  | nil =>
    cases marks with
    | cons m marks => exact Lexeme.startsMember_of_isModifier (modified m (by simp)) _
    | nil => exact shape.starts

namespace Outline

open Lexeme

theorem afterAttributes_list {a : List Lexeme} (h : AttributeList a) (rest : List Lexeme) :
    afterAttributes (a ++ rest) = afterAttributes rest := by
  obtain ⟨bracketed⟩ := h
  rename_i inner
  have group := afterGroup_square bracketed rest
  simp only [List.cons_append, List.append_assoc, List.nil_append]
  rw [afterAttributes.eq_def]
  simp only [is_mark, beq_self_eq_true, if_true]
  split <;> simp_all

theorem afterAttributes_none (ends : startsWith rest "[" = false) :
    afterAttributes rest = .ok rest := by
  cases rest with
  | nil => rw [afterAttributes.eq_def]
  | cons l rest =>
    have other : l.is "[" = false := ends
    rw [afterAttributes.eq_def]
    simp [other]

theorem afterAttributes_lists {attributes : List (List Lexeme)}
    (h : ∀ a ∈ attributes, AttributeList a) (ends : startsWith rest "[" = false) :
    afterAttributes (attributes.flatten ++ rest) = .ok rest := by
  induction attributes with
  | nil => exact afterAttributes_none ends
  | cons a attributes ih =>
    rw [List.forall_mem_cons] at h
    rw [List.flatten_cons, List.append_assoc, afterAttributes_list h.1, ih h.2]

theorem readMember_group {group : List Lexeme} (h : MemberGroup group)
    (ends : startsWith rest "=" = false) :
    ∃ e : Entry, readMember scope (group ++ rest) = .ok (.member e, rest) ∧
      e.size = group.length ∧ e.body = none := by
  have read : ∃ e, readMember scope (group ++ rest) = .ok (.member e, rest) := by
    obtain ⟨lists, modified, start, shape⟩ := h
    rename_i attributes marks core
    have ended := afterMember_core shape ends
    obtain ⟨unattributed, unmodified, untyped, unrecorded⟩ := start
    obtain ⟨first, second, more, rfl⟩ := shape.exists_two
    have front : startsWith (marks ++ (first :: second :: more ++ rest)) "[" = false := by
      cases marks with
      | nil => exact unattributed
      | cons m marks =>
        have apart : ∀ text ∈ modifiers, text ≠ "[" := by decide
        have modifier := modified m (by simp)
        simp only [isModifier, Bool.and_eq_true, List.contains_eq_mem, decide_eq_true_eq] at modifier
        simp [startsWith, is, apart m.text modifier.2]
    have stops : first.isModifier = false := unmodified
    have dropped : (marks ++ (first :: second :: more ++ rest)).dropWhile isModifier =
        first :: second :: more ++ rest := by
      rw [List.dropWhile_append_of_pos modified, List.cons_append,
        List.dropWhile_cons_of_neg (by simp [stops])]
    have keyword : ∀ word ∈ ["namespace", "class", "interface", "enum", "struct"],
        startsWith (first :: second :: more ++ rest) word = false := untyped
    have record : (startsWith (first :: second :: more ++ rest) "record" &&
        startsWithWord (first :: second :: more ++ rest).tail) = false := unrecorded
    simp only [List.forall_mem_cons] at keyword
    obtain ⟨isNamespace, isClass, isInterface, isEnum, isStruct, -⟩ := keyword
    rw [List.append_assoc, List.append_assoc]
    simp only [readMember, afterAttributes_lists lists front, dropped, isNamespace, isClass,
      isInterface, isEnum, isStruct, record, Bool.false_eq_true, if_false, readPlainMember, ended]
    exact ⟨_, rfl⟩
  obtain ⟨e, read⟩ := read
  obtain ⟨size, body, -⟩ := (readMember_known read).1
  refine ⟨e, read, ?_, body⟩
  rw [show e.size = _ from size, extent, List.length_append, Nat.add_sub_cancel]

end Outline

namespace Outline

open Lexeme

def Groups (entries : List Entry) (groups : List (List Lexeme)) : Prop :=
  List.Forall₂ (fun e group => e.size = group.length ∧ e.body = none) entries groups

variable {outer : List (Entry × Partial)} {current : Partial} {header : Entry} {braced : Bool}

theorem read_member (scope : current.scope = .typeBody) {group : List Lexeme}
    (h : MemberGroup group) (ends : startsWith rest "=" = false) :
    ∃ e : Entry, read current outer (group ++ rest) = read (current.addMember e) outer rest ∧
      e.size = group.length ∧ e.body = none := by
  obtain ⟨e, member, size, body⟩ := readMember_group h ends
  have starts := h.starts
  refine ⟨e, ?_, size, body⟩
  cases group with
  | nil => cases starts
  | cons l ls =>
    simp only [startsMember, List.head?_cons, Option.any_some, Bool.and_eq_true,
      Bool.not_eq_true'] at starts
    have step : current.read (l :: (ls ++ rest)) = .ok (.member e, rest) := by
      simpa [Partial.read, scope] using member
    exact read_item step starts.1

theorem not_brace_of_container {p : Partial}
    (h : p.read (l :: ls) = .ok (.container header scope braced, rest)) : l.is "\x7d" = false := by
  by_contra closes
  have other : ∀ text, text ≠ "\x7d" → l.is text = false := by
    intro text apart
    simp only [is, Bool.not_eq_false, Bool.and_eq_true, beq_iff_eq] at closes
    simp [is, closes.2, apart.symm]
  have keyword : ∀ text, text ≠ "\x7d" → startsWith (l :: ls) text = false := other
  have modifier : l.isModifier = false := by
    simp only [is, Bool.not_eq_false, Bool.and_eq_true, beq_iff_eq] at closes
    simp [isModifier, closes.2, modifiers]
  have attributes : afterAttributes (l :: ls) = .ok (l :: ls) :=
    afterAttributes_none (keyword "[" (by decide))
  have step : p.read (l :: ls) = readPlainMember p.scope .unmarked (l :: ls) (l :: ls) := by
    simp [Partial.read, startsImport, startsUsing, startsGlobalAttribute, readMember, keyword,
      attributes, modifier, Visibility.ofModifiers]
  rw [step, readPlainMember] at h
  split at h <;> cases h

theorem read_container (h : current.read ls = .ok (.container header scope braced, rest)) :
    read current outer ls = read (.empty scope braced) ((header, current) :: outer) rest := by
  cases ls with
  | nil => exact absurd (Partial.read_length h) (by simp)
  | cons l ls => exact read_item h (not_brace_of_container h)

end Outline

end CSharpTidy
