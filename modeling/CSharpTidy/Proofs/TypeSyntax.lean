import CSharpTidy.Proofs.MemberGroups

/- The grammar of types. A type is a tuple or a qualified name with type arguments, and marks for
   nullable, pointer and array types may follow. What is written as the grammar says is passed by
   every search over types, type arguments and bracketed lists. -/
namespace CSharpTidy

def isSpelt (text : String) : Bool :=
  text.toList.head?.any fun c => c == '@' || isWordStart c

structure Identifier where
  text : String
  spelt : isSpelt text

inductive PathJoint where
  | dot | colons

inductive TypeMark where
  | nullable | pointer
  | array (commas : Nat)

/-- A part of a qualified name. Without type arguments there are no angle brackets. -/
structure Segment (τ : Type) where
  word : Identifier
  arguments : List τ

/-- An element of a tuple may be named. -/
inductive TypeSyntax where
  | tuple (elements : List (TypeSyntax × Option Identifier)) (marks : List TypeMark)
  | named (first : Segment TypeSyntax) (others : List (PathJoint × Segment TypeSyntax))
      (marks : List TypeMark)

def Identifier.lexeme (w : Identifier) : Lexeme :=
  ⟨.word, w.text⟩

def PathJoint.lexeme : PathJoint → Lexeme
  | .dot => .mark "."
  | .colons => .mark "::"

def TypeMark.lexemes : TypeMark → List Lexeme
  | .nullable => [.mark "?"]
  | .pointer => [.mark "*"]
  | .array commas => .mark "[" :: (List.replicate commas (.mark ",") ++ [.mark "]"])

namespace TypeSyntax

mutual

def lexemes : TypeSyntax → List Lexeme
  | .tuple elements marks =>
      .mark "(" :: (tupleLexemes false elements ++
        .mark ")" :: marks.flatMap TypeMark.lexemes)
  | .named ⟨word, arguments⟩ others marks =>
      word.lexeme :: (argumentLexemes arguments ++
        (pathLexemes others ++ marks.flatMap TypeMark.lexemes))

/-- `comma` says that an element stands in front. -/
def tupleLexemes (comma : Bool) : List (TypeSyntax × Option Identifier) → List Lexeme
  | [] => []
  | (type, name) :: rest =>
      (if comma then [.mark ","] else []) ++ (type.lexemes ++
        (name.toList.map Identifier.lexeme ++ tupleLexemes true rest))

def pathLexemes : List (PathJoint × Segment TypeSyntax) → List Lexeme
  | [] => []
  | (joint, ⟨word, arguments⟩) :: rest =>
      joint.lexeme :: word.lexeme :: (argumentLexemes arguments ++ pathLexemes rest)

def argumentLexemes : List TypeSyntax → List Lexeme
  | [] => []
  | type :: rest => .mark "<" :: (type.lexemes ++ (moreLexemes rest ++ [.mark ">"]))

def moreLexemes : List TypeSyntax → List Lexeme
  | [] => []
  | type :: rest => .mark "," :: (type.lexemes ++ moreLexemes rest)

end

end TypeSyntax

def Brackets.angled : Brackets := [("(", ")"), ("[", "]"), ("\x7b", "\x7d"), ("<", ">")]

def typeMarks : List String :=
  [",", ".", "?", "[", "]", "(", ")", "::", "*", "<", ">"]

def Lexeme.isTypePart (l : Lexeme) : Bool :=
  (l.isWord && isSpelt l.text) || (l.isPunct && typeMarks.contains l.text)

/-- Lexemes that could be a part of a type as far as their brackets tell. -/
structure TypeLike (free : Lexeme → Prop) (ls : List Lexeme) : Prop where
  bracketed : Bracketed .angled free ls
  parts : ∀ l ∈ ls, l.isTypePart

variable {free : Lexeme → Prop} {ls : List Lexeme} {pairs : Brackets} {text : String}

theorem Bracketed.append {as bs : List Lexeme} (h : Bracketed pairs free as)
    (h' : Bracketed pairs free bs) : Bracketed pairs free (as ++ bs) := by
  induction h with
  | nil => exact h'
  | plain unbracketed isFree _ ih => exact .plain unbracketed isFree (ih h')
  | group pair inside _ _ ih =>
    rw [List.cons_append, List.append_assoc, List.cons_append]
    exact .group pair inside (ih h')

theorem Bracketed.mono {free' : Lexeme → Prop} (h : Bracketed pairs free ls)
    (le : ∀ l, free l → free' l) : Bracketed pairs free' ls := by
  induction h with
  | nil => exact .nil
  | plain unbracketed isFree _ ih => exact .plain unbracketed (le _ isFree) (ih le)
  | group pair inside _ _ ih => exact .group pair inside (ih le)

theorem Identifier.text_ne (w : Identifier) (mark : isSpelt text = false) : w.text ≠ text := by
  rintro rfl
  have spelt := w.spelt
  rw [mark] at spelt
  cases spelt

theorem Identifier.lexeme_is (w : Identifier) (mark : isSpelt text = false) :
    w.lexeme.is text = false := by
  simp [lexeme, Lexeme.is, w.text_ne mark]

namespace TypeLike

variable {free : Lexeme → Prop} {as bs : List Lexeme}

theorem nil : TypeLike free [] :=
  ⟨.nil, by simp⟩

theorem append (h : TypeLike free as) (h' : TypeLike free bs) : TypeLike free (as ++ bs) :=
  ⟨h.bracketed.append h'.bracketed, by
    rw [List.forall_mem_append]
    exact ⟨h.parts, h'.parts⟩⟩

theorem mono {free' : Lexeme → Prop} (h : TypeLike free as) (le : ∀ l, free l → free' l) :
    TypeLike free' as :=
  ⟨h.bracketed.mono le, h.parts⟩

theorem cons {l : Lexeme} (unbracketed : ∀ p ∈ Brackets.angled, l.is p.1 = false ∧ l.is p.2 = false)
    (part : l.isTypePart) (isFree : free l) (h : TypeLike free as) : TypeLike free (l :: as) :=
  ⟨.plain unbracketed isFree h.bracketed, by
    rw [List.forall_mem_cons]
    exact ⟨part, h.parts⟩⟩

theorem word (w : Identifier) (isFree : free w.lexeme) (h : TypeLike free as) :
    TypeLike free (w.lexeme :: as) := by
  have part : w.lexeme.isTypePart := by
    have spelt : isSpelt w.lexeme.text := w.spelt
    have isWord : w.lexeme.isWord := rfl
    simp [Lexeme.isTypePart, spelt, isWord]
  refine cons ?_ part isFree h
  simp only [Brackets.angled, List.forall_mem_cons]
  refine ⟨⟨?_, ?_⟩, ⟨?_, ?_⟩, ⟨?_, ?_⟩, ⟨?_, ?_⟩, by simp⟩ <;> exact w.lexeme_is (by decide)

theorem group {p : String × String} (pair : p ∈ [("(", ")"), ("[", "]"), ("<", ">")])
    (inside : TypeLike (fun _ => True) as) (rest : TypeLike free bs) :
    TypeLike free (.mark p.1 :: (as ++ .mark p.2 :: bs)) := by
  have member : p ∈ Brackets.angled := by
    simp only [Brackets.angled, List.mem_cons, List.not_mem_nil, or_false] at pair ⊢
    tauto
  have ends : (Lexeme.mark p.1).isTypePart ∧ (Lexeme.mark p.2).isTypePart := by
    simp only [List.mem_cons, List.not_mem_nil, or_false] at pair
    obtain rfl | rfl | rfl := pair <;> decide
  refine ⟨.group member inside.bracketed rest.bracketed, ?_⟩
  simp only [List.forall_mem_cons, List.forall_mem_append]
  exact ⟨ends.1, inside.parts, ends.2, rest.parts⟩

end TypeLike

def Lexeme.NoComma (l : Lexeme) : Prop :=
  l.is "," = false

instance (l : Lexeme) : Decidable l.NoComma :=
  inferInstanceAs (Decidable (l.is "," = false))

theorem TypeLike.commas (n : Nat) : TypeLike (fun _ => True) (List.replicate n (.mark ",")) := by
  induction n with
  | zero => exact .nil
  | succ n ih => exact .cons (by decide) (by decide) trivial ih

theorem TypeMark.typeLike (mark : TypeMark) : TypeLike Lexeme.NoComma mark.lexemes := by
  cases mark with
  | nullable | pointer => exact .cons (by decide) (by decide) (by decide) .nil
  | array commas => exact .group (p := ("[", "]")) (by decide) (.commas commas) .nil

theorem TypeMark.typeLike_all (marks : List TypeMark) :
    TypeLike Lexeme.NoComma (marks.flatMap TypeMark.lexemes) := by
  induction marks with
  | nil => exact .nil
  | cons mark marks ih =>
    rw [List.flatMap_cons]
    exact mark.typeLike.append ih

namespace TypeSyntax

theorem noComma_word (w : Identifier) : w.lexeme.NoComma :=
  w.lexeme_is (by decide)

mutual

theorem typeLike : (t : TypeSyntax) → TypeLike Lexeme.NoComma t.lexemes
  | .tuple elements marks => by
    rw [lexemes]
    exact .group (p := ("(", ")")) (by decide) (typeLike_tuple false elements)
      (TypeMark.typeLike_all marks)
  | .named ⟨word, arguments⟩ others marks => by
    rw [lexemes]
    exact .word word (noComma_word word) ((typeLike_arguments arguments).append
      ((typeLike_path others).append (TypeMark.typeLike_all marks)))

theorem typeLike_tuple (comma : Bool) : (elements : List (TypeSyntax × Option Identifier)) →
    TypeLike (fun _ => True) (tupleLexemes comma elements)
  | [] => .nil
  | (type, name) :: rest => by
    have separated : TypeLike (fun _ => True) (if comma then [.mark ","] else []) := by
      cases comma with
      | false => exact .nil
      | true => exact .cons (by decide) (by decide) trivial .nil
    have labelled : TypeLike (fun _ => True) (name.toList.map Identifier.lexeme) := by
      cases name with
      | none => exact .nil
      | some name => exact .word name trivial .nil
    rw [tupleLexemes]
    exact separated.append ((type.typeLike.mono fun _ _ => trivial).append
      (labelled.append (typeLike_tuple true rest)))

theorem typeLike_path : (others : List (PathJoint × Segment TypeSyntax)) →
    TypeLike Lexeme.NoComma (pathLexemes others)
  | [] => .nil
  | (joint, ⟨word, arguments⟩) :: rest => by
    rw [pathLexemes]
    have behind := TypeLike.word word (noComma_word word)
      ((typeLike_arguments arguments).append (typeLike_path rest))
    cases joint <;> exact .cons (by decide) (by decide) (by decide) behind

theorem typeLike_arguments : (arguments : List TypeSyntax) →
    TypeLike Lexeme.NoComma (argumentLexemes arguments)
  | [] => .nil
  | type :: rest => by
    have list := (type.typeLike.mono fun _ _ => trivial).append (typeLike_more rest)
    rw [argumentLexemes, ← List.append_assoc]
    exact .group (p := ("<", ">")) (by decide) list .nil

theorem typeLike_more : (rest : List TypeSyntax) →
    TypeLike (fun _ => True) (moreLexemes rest)
  | [] => .nil
  | type :: rest => by
    rw [moreLexemes]
    exact .cons (by decide) (by decide) trivial
      ((type.typeLike.mono fun _ _ => trivial).append (typeLike_more rest))

end

end TypeSyntax

namespace Lexeme

/-- A search for the end of type arguments passes what could be a part of them. -/
theorem afterAngles_typeLike (h : Bracketed .angled free ls) (parts : ∀ l ∈ ls, l.isTypePart)
    (inner : Nat) (rest : List Lexeme) :
    afterAngles inner (ls ++ rest) = afterAngles inner rest := by
  induction h generalizing inner rest with
  | nil => rfl
  | @plain _ l _ unbracketed _ _ ih =>
    rw [List.forall_mem_cons] at parts
    rw [List.cons_append, afterAngles.eq_def]
    simp only
    by_cases word : l.isWord
    · rw [if_pos word, ih parts.2]
    · have part := parts.1
      simp only [isTypePart, word, Bool.false_and, Bool.false_or, Bool.and_eq_true] at part
      obtain ⟨punct, listed⟩ := part
      obtain ⟨opener, closer⟩ := unbracketed ("<", ">") (by decide)
      have opener := text_ne_of_is punct opener
      have closer := text_ne_of_is punct closer
      have mark : [",", ".", "?", "[", "]", "(", ")", "::", "*"].contains l.text := by
        simp only [typeMarks, List.contains_eq_mem, List.mem_cons, decide_eq_true_eq,
          beq_eq_false_iff_ne] at *
        tauto
      rw [if_neg word, opener, closer, mark, if_neg (by simp), if_neg (by simp), if_pos rfl,
        ih parts.2]
  | @group _ p inside ls pair _ _ ihInside ihRest =>
    simp only [List.forall_mem_cons, List.forall_mem_append] at parts
    obtain ⟨opener, parts₁, -, parts₂⟩ := parts
    simp only [List.cons_append, List.append_assoc]
    simp only [Brackets.angled, List.mem_cons, List.not_mem_nil, or_false] at pair
    obtain rfl | rfl | rfl | rfl := pair
    · simp [afterAngles, mark, isWord, ihInside parts₁, ihRest parts₂]
    · simp [afterAngles, mark, isWord, ihInside parts₁, ihRest parts₂]
    · cases opener
    · simp [afterAngles, mark, isWord, ihInside parts₁, ihRest parts₂]

theorem inside_append (body : List Lexeme) (close : Lexeme) (after : List Lexeme) :
    inside (body ++ close :: after) after = body := by
  have size : (body ++ close :: after).length - (after.length + 1) = body.length := by
    simp only [List.length_append, List.length_cons]
    omega
  rw [inside, size, List.take_left]

theorem afterAngles_close (h : TypeLike free ls) (rest : List Lexeme) :
    afterAngles 0 (ls ++ mark ">" :: rest) = some rest := by
  rw [afterAngles_typeLike h.bracketed h.parts]
  simp [afterAngles, mark, isWord]

theorem afterGroup_brackets (h : Bracketed .angled free ls) (rest : List Lexeme) :
    afterGroup "[" "]" 0 (ls ++ mark "]" :: rest) = some rest := by
  have passed := afterGroup_bracketed (p := ("[", "]")) (by decide) (by decide) (by decide) h 0
    (mark "]" :: rest)
  simpa [afterGroup, is_mark] using passed

theorem afterGroup_parens (h : Bracketed .angled free ls) (rest : List Lexeme) :
    afterGroup "(" ")" 0 (ls ++ mark ")" :: rest) = some rest := by
  have passed := afterGroup_bracketed (p := ("(", ")")) (by decide) (by decide) (by decide) h 0
    (mark ")" :: rest)
  simpa [afterGroup, is_mark] using passed

end Lexeme

namespace Member

open Lexeme

variable {rest : List Lexeme} {n : Nat}

theorem typeArguments_none (h : startsWith rest "<" = false) :
    typeArguments rest = some (0, rest) := by
  cases rest with
  | nil => rfl
  | cons l rest =>
    have other : l.is "<" = false := h
    simp [typeArguments, other]

theorem typeArguments_list (h : TypeLike free ls) (rest : List Lexeme) :
    typeArguments (mark "<" :: (ls ++ mark ">" :: rest)) = some (listLength ls, rest) := by
  rw [typeArguments, afterAngles_close h]
  simp [is_mark, inside_append]

theorem typeArguments_arguments (arguments : List TypeSyntax) (h : startsWith rest "<" = false) :
    ∃ n, typeArguments (TypeSyntax.argumentLexemes arguments ++ rest) = some (n, rest) := by
  cases arguments with
  | nil => exact ⟨0, typeArguments_none h⟩
  | cons type more =>
    have list : TypeLike (fun _ => True) (type.lexemes ++ TypeSyntax.moreLexemes more) :=
      (type.typeLike.mono fun _ _ => trivial).append (TypeSyntax.typeLike_more more)
    refine ⟨listLength (type.lexemes ++ TypeSyntax.moreLexemes more), ?_⟩
    simpa [TypeSyntax.argumentLexemes] using typeArguments_list list rest

structure PathEnds (rest : List Lexeme) : Prop where
  arguments : startsWith rest "<" = false
  dot : startsWith rest "." = false
  colons : startsWith rest "::" = false

theorem afterTypeName_end (h : typeArguments ls = some (n, rest)) (ends : PathEnds rest) :
    afterTypeName ls = some rest := by
  rw [afterTypeName.eq_def]
  split
  · rename_i none
    rw [h] at none
    cases none
  · rename_i m dot word more found
    obtain ⟨-, rfl⟩ := Prod.mk.inj (Option.some.inj (h.symm.trans found))
    have noDot : dot.is "." = false := ends.dot
    have noColons : dot.is "::" = false := ends.colons
    simp [noDot, noColons]
  · rename_i m more _ found
    obtain ⟨-, rfl⟩ := Prod.mk.inj (Option.some.inj (h.symm.trans found))
    rfl

theorem afterTypeName_joint {joint : PathJoint} {word : Identifier}
    (h : typeArguments ls = some (n, joint.lexeme :: word.lexeme :: rest)) :
    afterTypeName ls = afterTypeName rest := by
  rw [afterTypeName.eq_def]
  split
  · rename_i none
    rw [h] at none
    cases none
  · rename_i m dot word' more found
    obtain ⟨-, same⟩ := Prod.mk.inj (Option.some.inj (h.symm.trans found))
    obtain ⟨rfl, rfl, rfl⟩ : joint.lexeme = dot ∧ word.lexeme = word' ∧ rest = more := by
      simpa using same
    cases joint <;> simp [PathJoint.lexeme, is_mark, Identifier.lexeme, isWord]
  · rename_i m more other found
    obtain ⟨-, rfl⟩ := Prod.mk.inj (Option.some.inj (h.symm.trans found))
    exact absurd rfl (other _ _ _)

theorem afterTypeName_path (arguments : List TypeSyntax)
    (others : List (PathJoint × Segment TypeSyntax)) (ends : PathEnds rest) :
    afterTypeName (TypeSyntax.argumentLexemes arguments ++ (TypeSyntax.pathLexemes others ++ rest)) =
      some rest := by
  induction others generalizing arguments with
  | nil =>
    obtain ⟨n, read⟩ := typeArguments_arguments arguments ends.arguments
    exact afterTypeName_end read ends
  | cons other others ih =>
    obtain ⟨joint, word, more⟩ := other
    have starts : startsWith (TypeSyntax.pathLexemes ((joint, ⟨word, more⟩) :: others) ++ rest) "<" =
        false := by
      cases joint <;> rfl
    obtain ⟨n, read⟩ := typeArguments_arguments arguments starts
    simp only [TypeSyntax.pathLexemes, List.cons_append, List.append_assoc] at read ⊢
    rw [afterTypeName_joint read, ih]

structure MarksEnd (rest : List Lexeme) : Prop where
  nullable : startsWith rest "?" = false
  pointer : startsWith rest "*" = false
  array : startsWith rest "[" = false

theorem afterTypeMarks_marks (marks : List TypeMark) (ends : MarksEnd rest) :
    afterTypeMarks (marks.flatMap TypeMark.lexemes ++ rest) = some rest := by
  induction marks with
  | nil =>
    cases rest with
    | nil => rw [afterTypeMarks.eq_def]; rfl
    | cons l rest =>
      have nullable : l.is "?" = false := ends.nullable
      have pointer : l.is "*" = false := ends.pointer
      have array : l.is "[" = false := ends.array
      rw [afterTypeMarks.eq_def]
      simp [nullable, pointer, array]
  | cons mark marks ih =>
    rw [List.flatMap_cons, List.append_assoc, afterTypeMarks.eq_def]
    cases mark with
    | nullable | pointer => simp [TypeMark.lexemes, is_mark, ih]
    | array commas =>
      have group := afterGroup_brackets (TypeLike.commas commas).bracketed
        (marks.flatMap TypeMark.lexemes ++ rest)
      have starts : startsWith (List.replicate commas (.mark ",") ++
          .mark "]" :: (marks.flatMap TypeMark.lexemes ++ rest)) "]" ∨
          startsWith (List.replicate commas (.mark ",") ++
            .mark "]" :: (marks.flatMap TypeMark.lexemes ++ rest)) "," := by
        cases commas with
        | zero => exact .inl rfl
        | succ n => exact .inr rfl
      simp only [TypeMark.lexemes, List.cons_append, List.append_assoc, List.nil_append, is_mark,
        String.reduceBEq, Bool.or_self, Bool.false_eq_true, if_false, Bool.true_and,
        Bool.or_eq_true, starts, if_true]
      split
      · rename_i unclosed
        rw [group] at unclosed
        cases unclosed
      · rename_i after closed
        obtain rfl := Option.some.inj (group.symm.trans closed)
        exact ih

theorem afterType_lexemes (t : TypeSyntax) (word : Identifier) (rest : List Lexeme) :
    afterType (t.lexemes ++ word.lexeme :: rest) = some (word.lexeme :: rest) := by
  have marksEnd : MarksEnd (word.lexeme :: rest) :=
    ⟨word.lexeme_is (by decide), word.lexeme_is (by decide), word.lexeme_is (by decide)⟩
  cases t with
  | tuple elements marks =>
    have group := afterGroup_parens (TypeSyntax.typeLike_tuple false elements).bracketed
      (marks.flatMap TypeMark.lexemes ++ word.lexeme :: rest)
    simp only [TypeSyntax.lexemes, List.cons_append, List.append_assoc, afterType, is_mark,
      BEq.rfl, if_true, group]
    exact afterTypeMarks_marks marks marksEnd
  | named first others marks =>
    obtain ⟨head, arguments⟩ := first
    have pathEnds : PathEnds (marks.flatMap TypeMark.lexemes ++ word.lexeme :: rest) := by
      rcases marks with - | ⟨- | - | -, -⟩
      · exact ⟨word.lexeme_is (by decide), word.lexeme_is (by decide), word.lexeme_is (by decide)⟩
      all_goals exact ⟨rfl, rfl, rfl⟩
    have paren : head.lexeme.is "(" = false := head.lexeme_is (by decide)
    have isWord : head.lexeme.isWord = true := rfl
    simp only [TypeSyntax.lexemes, List.cons_append, List.append_assoc, afterType, paren, isWord,
      Bool.false_eq_true, if_false, if_true, afterTypeName_path arguments others pathEnds]
    exact afterTypeMarks_marks marks marksEnd

end Member

end CSharpTidy
