import CSharpTidy.Proofs.TypeSyntax

/- The grammar of the members of a type. A method, property or field starts with its type and its
   possibly qualified name, and the mark behind the name tells them apart; a constructor is a word
   in front of a parameter list. Classifying the lexemes of a member gives back its kind and what it
   is sorted by. -/
namespace CSharpTidy

/-- An entry of a list. Its commas stand in brackets of its own. -/
structure ListEntry where
  lexemes : List Lexeme
  nonempty : lexemes ≠ []
  bracketed : Bracketed .angled Lexeme.NoComma lexemes

structure TypeParameter extends ListEntry where
  parts : ∀ l ∈ lexemes, l.isTypePart

def Segment.lexemes (s : Segment TypeSyntax) : List Lexeme :=
  s.word.lexeme :: TypeSyntax.argumentLexemes s.arguments

/-- The name of a member. The words in front of the last one name an interface. -/
structure QualifiedName where
  qualifiers : List (Segment TypeSyntax)
  last : Identifier
  plain : ∀ w ∈ qualifiers.map Segment.word ++ [last], w.text ≠ "this" ∧ w.text ≠ "operator"

def QualifiedName.lexemes (n : QualifiedName) : List Lexeme :=
  n.qualifiers.flatMap (fun s => s.lexemes ++ [.mark "."]) ++ [n.last.lexeme]

def separated : List (List Lexeme) → List Lexeme
  | [] => []
  | entry :: rest => entry ++ rest.flatMap (.mark "," :: ·)

/-- A member from behind its attributes and modifiers. What stands in `rest` does not matter. -/
inductive MemberSyntax where
  | method (type : TypeSyntax) (name : QualifiedName)
      (typeParameters : Option (List TypeParameter)) (parameters : List ListEntry)
      (rest : List Lexeme)
  | property (type : TypeSyntax) (name : QualifiedName)
      (mark : { text : String // text ∈ ["\x7b", "=>"] }) (rest : List Lexeme)
  | field (type : TypeSyntax) (name : QualifiedName)
      (mark : { text : String // text ∈ [";", "=", ",", "["] }) (rest : List Lexeme)
  | constructor (name : Identifier) (parameters : List ListEntry) (rest : List Lexeme)

namespace MemberSyntax

def parameterLexemes (parameters : List ListEntry) (rest : List Lexeme) : List Lexeme :=
  .mark "(" :: (separated (parameters.map ListEntry.lexemes) ++ .mark ")" :: rest)

def typeParameterLexemes : Option (List TypeParameter) → List Lexeme
  | none => []
  | some entries => .mark "<" :: (separated (entries.map (·.lexemes)) ++ [.mark ">"])

def lexemes : MemberSyntax → List Lexeme
  | .method type name typeParameters parameters rest =>
      type.lexemes ++ (name.lexemes ++
        (typeParameterLexemes typeParameters ++ parameterLexemes parameters rest))
  | .property type name mark rest => type.lexemes ++ (name.lexemes ++ .mark mark :: rest)
  | .field type name mark rest => type.lexemes ++ (name.lexemes ++ .mark mark :: rest)
  | .constructor name parameters rest => name.lexeme :: parameterLexemes parameters rest

def declared : MemberSyntax → DeclKind × DeclKey
  | .method _ name typeParameters parameters _ =>
      (.method, ⟨name.last.text, (typeParameters.getD []).length, parameters.length⟩)
  | .property _ name _ _ => (.property, ⟨name.last.text, 0, 0⟩)
  | .field _ name _ _ => (.field, ⟨name.last.text, 0, 0⟩)
  | .constructor name parameters _ => (.constructor, ⟨name.text, 0, parameters.length⟩)

end MemberSyntax

variable {ls : List Lexeme}

namespace Lexeme

theorem commas_bracketed {free : Lexeme → Prop} (h : Bracketed .angled free ls) {inner : Nat}
    (outside : inner = 0 → ∀ l, free l → l.NoComma) (rest : List Lexeme) :
    commas inner (ls ++ rest) = commas inner rest := by
  induction h generalizing inner rest with
  | nil => rfl
  | @plain _ l _ unbracketed isFree _ ih =>
    rw [List.cons_append, commas.eq_def]
    simp only
    by_cases punct : l.isPunct
    · simp only [Brackets.angled, List.forall_mem_cons] at unbracketed
      obtain ⟨⟨open₁, close₁⟩, ⟨open₂, close₂⟩, ⟨open₃, close₃⟩, ⟨open₄, close₄⟩, -⟩ := unbracketed
      have noComma : (l.text == "," && inner == 0) = false := by
        by_cases zero : inner = 0
        · simp [text_ne_of_is punct (outside zero l isFree)]
        · simp [zero]
      simp only [punct, List.contains_cons, text_ne_of_is punct open₁, text_ne_of_is punct open₂,
        text_ne_of_is punct open₃, text_ne_of_is punct open₄, text_ne_of_is punct close₁,
        text_ne_of_is punct close₂, text_ne_of_is punct close₃, text_ne_of_is punct close₄, noComma,
        List.contains_nil, Bool.or_self, Bool.not_true, Bool.false_eq_true, if_false]
      exact ih outside rest
    · simp only [punct, Bool.not_false, if_true]
      exact ih outside rest
  | @group _ p inside ls pair _ _ ihInside ihRest =>
    have opened : commas inner (mark p.1 :: (inside ++ mark p.2 :: (ls ++ rest))) =
        commas (inner + 1) (inside ++ mark p.2 :: (ls ++ rest)) := by
      simp only [Brackets.angled, List.mem_cons, List.not_mem_nil, or_false] at pair
      obtain rfl | rfl | rfl | rfl := pair <;> rfl
    have closed : commas (inner + 1) (mark p.2 :: (ls ++ rest)) = commas inner (ls ++ rest) := by
      simp only [Brackets.angled, List.mem_cons, List.not_mem_nil, or_false] at pair
      obtain rfl | rfl | rfl | rfl := pair <;> rfl
    simp only [List.cons_append, List.append_assoc]
    rw [opened, ihInside (by simp), closed, ihRest outside]

theorem bracketed_more (entries : List ListEntry) :
    Bracketed .angled (fun _ => True)
      ((entries.map ListEntry.lexemes).flatMap (.mark "," :: ·)) := by
  induction entries with
  | nil => exact .nil
  | cons entry entries ih =>
    rw [List.map_cons, List.flatMap_cons, List.cons_append]
    exact .plain (by decide) trivial ((entry.bracketed.mono fun _ _ => trivial).append ih)

theorem bracketed_separated (entries : List ListEntry) :
    Bracketed .angled (fun _ => True) (separated (entries.map ListEntry.lexemes)) := by
  cases entries with
  | nil => exact .nil
  | cons entry entries =>
    exact (entry.bracketed.mono fun _ _ => trivial).append (bracketed_more entries)

theorem mem_separated {entries : List (List Lexeme)} {l : Lexeme} (h : l ∈ separated entries) :
    l = mark "," ∨ ∃ entry ∈ entries, l ∈ entry := by
  cases entries with
  | nil => cases h
  | cons entry entries =>
    simp only [separated, List.mem_append, List.mem_flatMap, List.mem_cons] at h
    obtain own | ⟨other, listed, rfl | part⟩ := h
    · exact .inr ⟨entry, by simp, own⟩
    · exact .inl rfl
    · exact .inr ⟨other, by simp [listed], part⟩

theorem commas_entry (entry : ListEntry) (rest : List Lexeme) :
    commas 0 (entry.lexemes ++ rest) = commas 0 rest :=
  commas_bracketed entry.bracketed (fun _ _ free => free) rest

theorem commas_more (entries : List ListEntry) :
    commas 0 ((entries.map ListEntry.lexemes).flatMap (.mark "," :: ·)) = entries.length := by
  induction entries with
  | nil => rfl
  | cons entry entries ih =>
    rw [List.map_cons, List.flatMap_cons, List.cons_append]
    have comma : ∀ ls, commas 0 (mark "," :: ls) = commas 0 ls + 1 := fun _ => rfl
    rw [comma, commas_entry, ih, List.length_cons]

theorem listLength_separated (entries : List ListEntry) :
    listLength (separated (entries.map ListEntry.lexemes)) = entries.length := by
  cases entries with
  | nil => rfl
  | cons entry entries =>
    have nonempty : (separated ((entry :: entries).map ListEntry.lexemes)).isEmpty = false := by
      simp [separated, entry.nonempty]
    rw [listLength, nonempty, if_neg (by simp), List.map_cons, separated, commas_entry, commas_more,
      List.length_cons]

end Lexeme

namespace Member

open Lexeme MemberSyntax

theorem params_parameterLexemes (parameters : List ListEntry) (rest : List Lexeme) :
    params (separated (parameters.map ListEntry.lexemes) ++ mark ")" :: rest) =
      parameters.length := by
  rw [params, afterGroup_parens (bracketed_separated parameters)]
  simp only [inside_append, listLength_separated]

theorem typeArguments_typeParameters (typeParameters : Option (List TypeParameter))
    {rest : List Lexeme} (ends : startsWith rest "<" = false) :
    typeArguments (typeParameterLexemes typeParameters ++ rest) =
      some ((typeParameters.getD []).length, rest) := by
  cases typeParameters with
  | none => exact typeArguments_none ends
  | some entries =>
    have same : entries.map (·.lexemes) = (entries.map (·.toListEntry)).map ListEntry.lexemes := by
      rw [List.map_map]
      rfl
    have parts : TypeLike (fun _ => True) (separated (entries.map (·.lexemes))) := by
      refine ⟨same ▸ bracketed_separated _, fun l mem => ?_⟩
      obtain rfl | ⟨entry, listed, part⟩ := mem_separated mem
      · decide
      · obtain ⟨parameter, -, rfl⟩ := List.mem_map.mp listed
        exact parameter.parts l part
    rw [typeParameterLexemes, List.cons_append, List.append_assoc, List.singleton_append,
      typeArguments_list parts, same, listLength_separated]
    simp

variable {after : List Lexeme} {m : Nat}

theorem name_last {word : Identifier} {n : Nat} (arguments : typeArguments ls = some (n, after))
    (ends : startsWith after "." = false) :
    name (word.lexeme :: ls) = .named word.text n after := by
  rw [name.eq_def]
  simp only
  split
  · rename_i none
    rw [arguments] at none
    cases none
  · rename_i m found
    obtain ⟨rfl, rfl⟩ := Prod.mk.inj (Option.some.inj (arguments.symm.trans found))
    rfl
  · rename_i m l rest found
    obtain ⟨rfl, rfl⟩ := Prod.mk.inj (Option.some.inj (arguments.symm.trans found))
    have dot : l.is "." = false := ends
    simp [dot, Identifier.lexeme]

theorem name_qualifier (s : Segment TypeSyntax) {next : Identifier}
    (plain : next.text ≠ "this" ∧ next.text ≠ "operator") (rest : List Lexeme) :
    name (s.lexemes ++ mark "." :: next.lexeme :: rest) = name (next.lexeme :: rest) := by
  have dot : startsWith (mark "." :: next.lexeme :: rest) "<" = false := rfl
  obtain ⟨n, arguments⟩ := typeArguments_arguments s.arguments dot
  rw [Segment.lexemes, List.cons_append, name.eq_def]
  simp only
  split
  · rename_i none
    rw [arguments] at none
    cases none
  · rename_i m found
    cases arguments.symm.trans found
  · rename_i m l qualified found
    obtain ⟨rfl, same⟩ := Prod.mk.inj (Option.some.inj (arguments.symm.trans found))
    obtain ⟨rfl, rfl⟩ := List.cons.inj same
    have isThis : next.lexeme.is "this" = false := by simp [Identifier.lexeme, Lexeme.is, plain.1]
    have isOperator : next.lexeme.is "operator" = false := by
      simp [Identifier.lexeme, Lexeme.is, plain.2]
    have isWord : next.lexeme.isWord = true := rfl
    simp [is_mark, startsWith, startsWithWord, isThis, isOperator, isWord]

theorem exists_firstWord (qualifiers : List (Segment TypeSyntax)) (last : Identifier) :
    ∃ w ∈ qualifiers.map Segment.word ++ [last], ∃ rest,
      qualifiers.flatMap (fun s => s.lexemes ++ [mark "."]) ++ [last.lexeme] = w.lexeme :: rest := by
  cases qualifiers with
  | nil => exact ⟨last, by simp, [], rfl⟩
  | cons s qualifiers => exact ⟨s.word, by simp, _, rfl⟩

theorem name_lexemes (n : QualifiedName) (arguments : typeArguments ls = some (m, after))
    (ends : startsWith after "." = false) :
    name (n.lexemes ++ ls) = .named n.last.text m after := by
  obtain ⟨qualifiers, last, plain⟩ := n
  rw [QualifiedName.lexemes]
  induction qualifiers with
  | nil => exact name_last arguments ends
  | cons s qualifiers ih =>
    rw [List.map_cons, List.cons_append, List.forall_mem_cons] at plain
    have behind := ih plain.2
    obtain ⟨next, listed, rest, first⟩ := exists_firstWord qualifiers last
    rw [first, List.cons_append] at behind
    have split : (s :: qualifiers).flatMap (fun s => s.lexemes ++ [mark "."]) ++ [last.lexeme] =
        s.lexemes ++ mark "." :: next.lexeme :: rest := by
      rw [List.flatMap_cons, List.append_assoc, first, List.append_assoc]
      rfl
    rw [split, List.append_assoc, List.cons_append, List.cons_append,
      name_qualifier s (plain.2 next listed), behind]

theorem QualifiedName.exists_first (n : QualifiedName) :
    ∃ (w : Identifier) (rest : List Lexeme), n.lexemes = w.lexeme :: rest ∧
      w.lexeme.is "this" = false ∧ w.lexeme.is "operator" = false := by
  obtain ⟨w, listed, rest, first⟩ := exists_firstWord n.qualifiers n.last
  obtain ⟨isThis, isOperator⟩ := n.plain w listed
  refine ⟨w, rest, first, ?_, ?_⟩
  · simp [Identifier.lexeme, Lexeme.is, isThis]
  · simp [Identifier.lexeme, Lexeme.is, isOperator]

theorem ofTypedMember_lexemes (t : TypeSyntax) (n : QualifiedName)
    (arguments : typeArguments ls = some (m, after)) (ends : startsWith after "." = false) :
    ofTypedMember (t.lexemes ++ (n.lexemes ++ ls)) = ofName n.last.text m after := by
  have named := name_lexemes n arguments ends
  obtain ⟨w, rest, first, isThis, isOperator⟩ := QualifiedName.exists_first n
  rw [first, List.cons_append] at named ⊢
  rw [ofTypedMember, afterType_lexemes]
  have isWord : w.lexeme.isWord = true := rfl
  simp [startsWith, startsWithWord, isThis, isOperator, isWord, named]

theorem ofTypeMember_of_not {l : Lexeme} (h : (l.isWord && startsWith ls "(") = false) :
    ofTypeMember (l :: ls) = ofTypedMember (l :: ls) := by
  cases ls with
  | nil => rfl
  | cons paren rest =>
    have other : (l.isWord && paren.is "(") = false := h
    rw [ofTypeMember, other, if_neg (by simp)]

theorem ofTypeMember_type (t : TypeSyntax) (w : Identifier) (rest : List Lexeme) :
    ofTypeMember (t.lexemes ++ w.lexeme :: rest) = ofTypedMember (t.lexemes ++ w.lexeme :: rest) := by
  cases t with
  | tuple elements marks => exact ofTypeMember_of_not rfl
  | named first others marks =>
    obtain ⟨word, arguments⟩ := first
    refine ofTypeMember_of_not ?_
    -- Behind the first word stands its argument list, the next word of the path, a mark or the name.
    rcases arguments with - | ⟨type, more⟩
    · rcases others with - | ⟨⟨- | -, segment⟩, others⟩
      · rcases marks with - | ⟨- | - | -, marks⟩
        · have paren : w.lexeme.is "(" = false := w.lexeme_is (by decide)
          simpa [TypeSyntax.argumentLexemes, TypeSyntax.pathLexemes, startsWith] using fun _ => paren
        all_goals rfl
      all_goals rfl
    · rfl

theorem ofTypeMember_lexemes (t : TypeSyntax) (n : QualifiedName)
    (arguments : typeArguments ls = some (m, after)) (ends : startsWith after "." = false) :
    ofTypeMember (t.lexemes ++ (n.lexemes ++ ls)) = ofName n.last.text m after := by
  obtain ⟨w, rest, first, -⟩ := QualifiedName.exists_first n
  rw [← ofTypedMember_lexemes t n arguments ends, first, List.cons_append, ofTypeMember_type]

theorem classify_typeBody
    (h : ∀ l ∈ ls.head?, l.text ∉ ["delegate", "event", "~", "implicit", "explicit"]) :
    classify .typeBody ls = ofTypeMember ls := by
  cases ls with
  | nil => rfl
  | cons l ls =>
    have apart := h l rfl
    simp only [List.mem_cons, List.not_mem_nil, or_false, not_or] at apart
    simp only [classify, List.head?_cons, Option.map_some]
    split <;> simp_all

end Member

namespace MemberSyntax

open Lexeme Member

theorem head_text_ne_tilde (m : MemberSyntax) : ∀ l ∈ m.lexemes.head?, l.text ≠ "~" := by
  have typed : ∀ (t : TypeSyntax) (ls : List Lexeme), ∀ l ∈ (t.lexemes ++ ls).head?, l.text ≠ "~" := by
    intro t ls l first
    cases t with
    | tuple elements marks =>
      obtain rfl := Option.some.inj first
      decide
    | named segment others marks =>
      obtain rfl := Option.some.inj first
      exact segment.word.text_ne (by decide)
  cases m with
  | method type | property type | field type => exact typed type _
  | constructor name =>
    intro l first
    obtain rfl := Option.some.inj first
    exact name.text_ne (by decide)

/-- Members are classified as what they declare. -/
theorem classify_lexemes (m : MemberSyntax)
    (start : ∀ l ∈ m.lexemes.head?, l.text ∉ ["delegate", "event", "implicit", "explicit"]) :
    classify .typeBody m.lexemes = m.declared := by
  have read : classify .typeBody m.lexemes = ofTypeMember m.lexemes := by
    refine classify_typeBody fun l first => ?_
    have apart := start l first
    have tilde := m.head_text_ne_tilde l first
    simp only [List.mem_cons, List.not_mem_nil, or_false, not_or] at apart ⊢
    tauto
  rw [read]
  cases m with
  | method type name typeParameters parameters rest =>
    rw [lexemes, ofTypeMember_lexemes type name
      (typeArguments_typeParameters typeParameters rfl) rfl]
    simp [parameterLexemes, ofName, is_mark, params_parameterLexemes, declared]
  | property type name mark rest =>
    obtain ⟨text, listed⟩ := mark
    simp only [List.mem_cons, List.not_mem_nil, or_false] at listed
    rw [lexemes, ofTypeMember_lexemes type name (typeArguments_none ?_) ?_]
    · obtain rfl | rfl := listed <;> rfl
    all_goals obtain rfl | rfl := listed <;> rfl
  | field type name mark rest =>
    obtain ⟨text, listed⟩ := mark
    simp only [List.mem_cons, List.not_mem_nil, or_false] at listed
    rw [lexemes, ofTypeMember_lexemes type name (typeArguments_none ?_) ?_]
    · obtain rfl | rfl | rfl | rfl := listed <;> rfl
    all_goals obtain rfl | rfl | rfl | rfl := listed <;> rfl
  | constructor name parameters rest =>
    have isWord : name.lexeme.isWord = true := rfl
    have text : name.lexeme.text = name.text := rfl
    simp [lexemes, parameterLexemes, ofTypeMember, is_mark, isWord, text, params_parameterLexemes,
      declared]

/-- A method of an interface, with type parameters, two parameters and a nested generic type. -/
theorem classify_lexemes_method :
    let word (text : String) : Lexeme := ⟨.word, text⟩
    let simple (w : Identifier) : TypeSyntax := .named ⟨w, []⟩ [] []
    let pair : TypeSyntax := .tuple [(simple ⟨"int", by decide⟩, some ⟨"a", by decide⟩),
      (.named ⟨⟨"List", by decide⟩, [simple ⟨"T", by decide⟩]⟩ [] [.array 0], none)] []
    let type : TypeSyntax := .named ⟨⟨"Map", by decide⟩, [simple ⟨"string", by decide⟩, pair]⟩
      [(.dot, ⟨⟨"Entry", by decide⟩, []⟩)] [.nullable, .array 1]
    let name : QualifiedName :=
      ⟨[⟨⟨"IFoo", by decide⟩, [simple ⟨"T", by decide⟩]⟩], ⟨"Find", by decide⟩, by decide⟩
    let bare (l : Lexeme) (h : ∀ p ∈ Brackets.angled, l.is p.1 = false ∧ l.is p.2 = false)
        (free : l.NoComma) : ListEntry := ⟨[l], by simp, .plain h free .nil⟩
    let typeParameters : List TypeParameter :=
      [⟨bare (word "U") (by decide) (by decide), by decide⟩,
        ⟨bare (word "V") (by decide) (by decide), by decide⟩]
    let function : ListEntry := ⟨word "F" :: .mark "<" :: ([word "U", .mark ",", word "V"] ++
        [.mark ">", word "f"]),
      by simp, .plain (by decide) (by decide) (.group (p := ("<", ">")) (by decide)
        (.plain (by decide) trivial (.plain (by decide) trivial (.plain (by decide) trivial .nil)))
        (.plain (by decide) (by decide) .nil))⟩
    let m : MemberSyntax := .method type name (some typeParameters)
      [function, bare (word "x") (by decide) (by decide)] [.mark ";"]
    (∀ l ∈ m.lexemes.head?, l.text ∉ ["delegate", "event", "implicit", "explicit"]) ∧
      classify .typeBody m.lexemes = (.method, ⟨"Find", 2, 2⟩) := by
  intro word simple pair type name bare typeParameters function m
  have start : ∀ l ∈ m.lexemes.head?, l.text ∉ ["delegate", "event", "implicit", "explicit"] := by
    intro l first
    obtain rfl := Option.some.inj first
    decide
  exact ⟨start, m.classify_lexemes start⟩

/-- A keyword in front of a parameter list is no constructor, and a number in a list of type
parameters hides the method. -/
theorem classify_outside_syntax :
    let word (text : String) : Lexeme := ⟨.word, text⟩
    let keyword : MemberSyntax := .constructor ⟨"event", by decide⟩ [] [.mark ";"]
    let number : Lexeme := ⟨.number, "1"⟩
    let marked := .mark "[" :: (word "A" :: .mark "(" :: ([number] ++ [.mark ")"]) ++ [.mark "]", word "T"])
    let parameters := [.mark "(", .mark ")", .mark ";"]
    classify .typeBody keyword.lexemes = (.other .event, {}) ∧
      Bracketed .angled NoComma marked ∧
      classify .typeBody (word "void" :: word "M" :: .mark "<" :: (marked ++ .mark ">" :: parameters)) =
        (.other .unknown, {}) := by
  intro word keyword number marked parameters
  have argument : Bracketed .angled (fun _ => True) (.mark "(" :: ([number] ++ [.mark ")"])) :=
    .group (p := ("(", ")")) (by decide) (.plain (by decide) trivial .nil) .nil
  refine ⟨by decide +kernel, ?_, by decide +kernel⟩
  exact .group (p := ("[", "]")) (by decide) (.plain (by decide) trivial argument)
    (.plain (by decide) (by decide) .nil)

end MemberSyntax

end CSharpTidy
