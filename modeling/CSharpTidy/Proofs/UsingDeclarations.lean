import CSharpTidy.Proofs.OutlineEnds
import CSharpTidy.Proofs.TreeCut
import CSharpTidy.Proofs.TypeSyntax

/- Resource declarations at the top of a file, `using T x = e;`. They are told from using directives
   by the two lexemes behind the keyword. A type that is one word or a tuple makes the declaration a
   statement, which pins the members of the file; with any other type it is taken for an import. -/
namespace CSharpTidy

def Lexeme.isInner (l : Lexeme) : Bool :=
  !(l.is ";" || l.is "\x7b" || l.is "\x7d")

structure ImportDirective where
  body : List Lexeme
  starts : Outline.startsImport (body ++ [.mark ";"])
  inner : ∀ l ∈ body, l.isInner

def ImportDirective.lexemes (i : ImportDirective) : List Lexeme :=
  i.body ++ [.mark ";"]

/-- A resource declaration. No semicolon stands in its value outside of brackets. -/
structure UsingDeclaration where
  type : TypeSyntax
  name : Identifier
  value : List Lexeme
  bracketed : Bracketed .all (fun l => l.is ";" = false) value

namespace UsingDeclaration

def head (d : UsingDeclaration) : List Lexeme :=
  ⟨.word, "using"⟩ :: (d.type.lexemes ++ [d.name.lexeme])

def lexemes (d : UsingDeclaration) : List Lexeme :=
  d.head ++ .mark "=" :: (d.value ++ [.mark ";"])

/-- How many lexemes of the declaration an import could hold in front of its semicolon. -/
def importLength (d : UsingDeclaration) : Nat :=
  (d.lexemes.takeWhile Lexeme.isInner).length

end UsingDeclaration

/-- Two lexemes tell that no import starts with this type: it is a tuple, or a single word in front
of the name. -/
def TypeSyntax.isBrief : TypeSyntax → Bool
  | .tuple _ _ => true
  | .named ⟨word, []⟩ [] [] => word.text != "static" && word.text != "unsafe"
  | _ => false

variable {ls : List Lexeme}

theorem Bracketed.restrict {pairs pairs' : Brackets} (sub : ∀ p ∈ pairs', p ∈ pairs)
    (apart : ∀ p ∈ pairs, p ∉ pairs' → ∀ q ∈ pairs', p.1 ≠ q.1 ∧ p.1 ≠ q.2 ∧ p.2 ≠ q.1 ∧ p.2 ≠ q.2)
    {free free' : Lexeme → Prop} (h : Bracketed pairs free ls) (all : ∀ l ∈ ls, free' l) :
    Bracketed pairs' free' ls := by
  induction h generalizing free' with
  | nil => exact .nil
  | plain unbracketed _ _ ih =>
    rw [List.forall_mem_cons] at all
    exact .plain (fun p mem => unbracketed p (sub p mem)) all.1 (ih all.2)
  | @group _ p inner ls pair _ _ ihInside ihRest =>
    simp only [List.forall_mem_cons, List.forall_mem_append] at all
    obtain ⟨opener, inside, closer, rest⟩ := all
    by_cases kept : p ∈ pairs'
    · exact .group kept (ihInside fun _ _ => trivial) (ihRest rest)
    · have other := apart p pair kept
      refine .plain ?_ opener ((ihInside inside).append (.plain ?_ closer (ihRest rest)))
      · intro q mem
        obtain ⟨h₁, h₂, -⟩ := other q mem
        simp [Lexeme.is_mark, h₁, h₂]
      · intro q mem
        obtain ⟨-, -, h₃, h₄⟩ := other q mem
        simp [Lexeme.is_mark, h₃, h₄]

theorem Lexeme.is_of_isTypePart {l : Lexeme} (h : l.isTypePart) {text : String}
    (unspelt : isSpelt text = false) (unlisted : typeMarks.contains text = false) :
    l.is text = false := by
  have other : l.text ≠ text := by
    rintro rfl
    simp only [isTypePart, unspelt, unlisted, Bool.and_false, Bool.or_self] at h
    cases h
  simp [is, other]

namespace UsingDeclaration

variable (d : UsingDeclaration)

theorem memberHead : MemberHead d.head := by
  have named : TypeLike (fun _ => True) [d.name.lexeme] := .word d.name trivial .nil
  have parts : ∀ l ∈ d.head, l.isTypePart := by
    rw [head, List.forall_mem_cons, List.forall_mem_append]
    exact ⟨by decide, d.type.typeLike.parts, named.parts⟩
  have bracketed : Bracketed .angled (fun _ => True) d.head :=
    .plain (by decide) trivial ((d.type.typeLike.bracketed.mono fun _ _ => trivial).append
      named.bracketed)
  refine ⟨by simp [head], bracketed.restrict (by decide) (by decide) fun l mem => ?_,
    fun l mem => ?_⟩
  · have part := parts l mem
    exact ⟨l.is_of_isTypePart part (by decide) (by decide),
      l.is_of_isTypePart part (by decide) (by decide), l.is_of_isTypePart part (by decide) (by decide)⟩
  · have part := parts l mem
    exact ⟨l.is_of_isTypePart part (by decide) (by decide),
      l.is_of_isTypePart part (by decide) (by decide)⟩

end UsingDeclaration

namespace Outline

open Lexeme

theorem startsUsing_word (word : Identifier) (next : Lexeme) (rest : List Lexeme) :
    startsUsing (⟨.word, "using"⟩ :: word.lexeme :: next :: rest) =
      (word.text == "static" || word.text == "unsafe" || !next.isWord) := by
  have paren : word.lexeme.is "(" = false := word.lexeme_is (by decide)
  have isWord : word.lexeme.isWord = true := rfl
  have keyword : ∀ text, word.lexeme.is text = (word.text == text) := fun _ => rfl
  have opens : (⟨.word, "using"⟩ : Lexeme).is "using" = true := rfl
  simp [startsUsing, startsWith, startsWithWord, paren, isWord, keyword, opens]

/-- A declaration whose type shows in two lexemes is no import, and any other is. -/
theorem startsImport_declaration (d : UsingDeclaration) (rest : List Lexeme) :
    startsImport (d.lexemes ++ rest) = !d.type.isBrief := by
  obtain ⟨type, name, value, bracketed⟩ := d
  have reads : startsImport (UsingDeclaration.lexemes ⟨type, name, value, bracketed⟩ ++ rest) =
      startsUsing (⟨.word, "using"⟩ :: (type.lexemes ++
        name.lexeme :: mark "=" :: (value ++ mark ";" :: rest))) := by
    simp [startsImport, UsingDeclaration.lexemes, UsingDeclaration.head, startsWith, Lexeme.is]
  rw [reads]
  cases type with
  | tuple elements marks => rfl
  | named first others marks =>
    obtain ⟨word, arguments⟩ := first
    -- Behind the first word of the type stand its arguments, its next word, a mark or the name.
    rcases arguments with - | ⟨type, more⟩
    · rcases others with - | ⟨⟨- | -, segment⟩, others⟩
      · rcases marks with - | ⟨- | - | -, marks⟩
        · refine (startsUsing_word word name.lexeme _).trans ?_
          simp [TypeSyntax.isBrief, Identifier.lexeme, isWord, bne]
        all_goals exact (startsUsing_word word _ _).trans (Bool.or_true _)
      all_goals exact (startsUsing_word word _ _).trans (Bool.or_true _)
    · exact (startsUsing_word word _ _).trans (Bool.or_true _)

theorem startsUsing_append (body rest : List Lexeme) :
    startsUsing (body ++ mark ";" :: rest) = startsUsing (body ++ [mark ";"]) := by
  rcases body with - | ⟨a, - | ⟨b, - | ⟨c, body⟩⟩⟩ <;> rfl

theorem startsImport_append (body rest : List Lexeme) :
    startsImport (body ++ mark ";" :: rest) = startsImport (body ++ [mark ";"]) := by
  rcases body with - | ⟨a, body⟩
  · rfl
  · have directive : startsUsing (if a.is "global" then body ++ mark ";" :: rest
        else a :: (body ++ mark ";" :: rest)) =
        startsUsing (if a.is "global" then body ++ [mark ";"] else a :: (body ++ [mark ";"])) := by
      split
      · exact startsUsing_append body rest
      · exact startsUsing_append (a :: body) rest
    have aliased : startsWith (body ++ mark ";" :: rest) "alias" =
        startsWith (body ++ [mark ";"]) "alias" := by
      cases body <;> rfl
    simp only [startsImport, List.cons_append, List.tail_cons, aliased]
    exact congrArg _ directive

theorem afterSemicolon_append {body : List Lexeme} (inner : ∀ l ∈ body, l.isInner)
    (ls : List Lexeme) : afterSemicolon (body ++ ls) = afterSemicolon ls := by
  induction body with
  | nil => rfl
  | cons l body ih =>
    rw [List.forall_mem_cons] at inner
    obtain ⟨first, others⟩ := inner
    simp only [isInner, Bool.not_eq_true', Bool.or_eq_false_iff] at first
    simp [afterSemicolon, first, ih others]

structure Partial.Preamble (p : Partial) : Prop where
  scope : p.scope = .compilationUnit
  attributes : p.body.attributes = []
  members : p.body.members = []

variable {directives : List ImportDirective} {p : Partial} {d : UsingDeclaration}
  {entries : List Entry} {rest : List Lexeme} {body : Body Entry}

theorem Partial.Preamble.addImport (h : p.Preamble) (e : Entry) : (p.addImport e).Preamble :=
  ⟨h.scope, h.attributes, h.members⟩

theorem Partial.Preamble.read_import (h : p.Preamble) (starts : startsImport ls) :
    p.read ls = readImport ls := by
  simp [Partial.read, h.scope, h.attributes, h.members, starts]

theorem Partial.Preamble.read_member (h : p.Preamble) (starts : startsImport ls = false)
    (unbracketed : startsWith ls "[" = false) : p.read ls = readMember .compilationUnit ls := by
  simp [Partial.read, h.scope, h.attributes, h.members, starts, startsGlobalAttribute, unbracketed]

theorem read_directive (h : p.Preamble) (i : ImportDirective) (rest : List Lexeme) :
    ∃ e : Entry, read p [] (i.lexemes ++ rest) = read (p.addImport e) [] rest ∧
      e.size = i.lexemes.length ∧ e.body = none := by
  have spelt : i.lexemes ++ rest = i.body ++ mark ";" :: rest := by
    simp [ImportDirective.lexemes]
  have starts : startsImport (i.lexemes ++ rest) := by
    rw [spelt, startsImport_append]
    exact i.starts
  have ended : afterSemicolon (i.lexemes ++ rest) = .ok rest := by
    rw [spelt]
    exact afterSemicolon_append i.inner _
  have unclosed : startsWith (i.lexemes ++ rest) "\x7d" = false := by
    obtain ⟨body, -, inner⟩ := i
    cases body with
    | nil => rfl
    | cons l body =>
      have first := inner l (by simp)
      simp only [isInner, Bool.not_eq_true', Bool.or_eq_false_iff] at first
      exact first.2
  have step := (h.read_import starts).trans (by rw [readImport, ended])
  exact ⟨_, read_item step unclosed, by simp [extent], rfl⟩

theorem read_directives (h : p.Preamble) (directives : List ImportDirective) (rest : List Lexeme) :
    ∃ entries, read p [] (directives.flatMap ImportDirective.lexemes ++ rest) =
      read (Role.imported.add p entries) [] rest ∧
      Groups entries (directives.map ImportDirective.lexemes) := by
  induction directives generalizing p with
  | nil => exact ⟨[], by simp [Role.add], .nil⟩
  | cons i directives ih =>
    obtain ⟨e, first, taken⟩ := read_directive h i (directives.flatMap ImportDirective.lexemes ++ rest)
    obtain ⟨entries, others, grouped⟩ := ih (h.addImport e)
    refine ⟨e :: entries, ?_, .cons taken grouped⟩
    rw [List.flatMap_cons, List.append_assoc, first, others]
    simp [Role.add, Partial.addImport]

theorem afterMember_declaration (d : UsingDeclaration) (rest : List Lexeme) :
    afterMember 0 false (d.lexemes ++ rest) = .ok rest := by
  simp only [UsingDeclaration.lexemes, List.append_assoc, List.cons_append, List.nil_append]
  rw [afterMember_memberHead d.memberHead, afterMember_equals (.inl rfl), afterMember_value d.bracketed]

def statement (d : UsingDeclaration) : Entry :=
  { kind := .other .statement, size := d.lexemes.length }

theorem readMember_declaration (d : UsingDeclaration) (rest : List Lexeme) :
    readMember .compilationUnit (d.lexemes ++ rest) = .ok (.member (statement d), rest) := by
  have unbracketed : afterAttributes (d.lexemes ++ rest) = .ok (d.lexemes ++ rest) :=
    afterAttributes_none rfl
  have marks : (d.lexemes ++ rest).takeWhile isModifier = [] := rfl
  have head : (d.lexemes ++ rest).dropWhile isModifier = d.lexemes ++ rest := rfl
  have keyword : ∀ text, text ≠ "using" → startsWith (d.lexemes ++ rest) text = false := by
    intro text other
    simp [startsWith, UsingDeclaration.lexemes, UsingDeclaration.head, Lexeme.is, other.symm]
  have classified : Member.classify .compilationUnit d.lexemes = (.other .statement, {}) := rfl
  have size : extent (d.lexemes ++ rest) rest = d.lexemes.length := by simp [extent]
  simp only [readMember, unbracketed, marks, head, keyword "namespace" (by decide),
    keyword "class" (by decide), keyword "interface" (by decide), keyword "enum" (by decide),
    keyword "struct" (by decide), keyword "record" (by decide), Bool.false_and, Bool.false_eq_true,
    if_false, readPlainMember, afterMember_declaration, size, List.take_left, classified]
  rfl

def rootOf (current : Partial) : List (Entry × Partial) → Partial
  | [] => current
  | (_, parent) :: outer => rootOf parent outer

/-- A body that goes on from another one. Behind a member no import follows. -/
structure Body.Extends (b b' : Body Entry) : Prop where
  imports : b.imports <+: b'.imports
  members : b.members <+: b'.members
  settled : b.members ≠ [] → b'.imports = b.imports ∧ b'.attributes = b.attributes

theorem Body.Extends.refl (b : Body Entry) : b.Extends b :=
  ⟨List.prefix_refl _, List.prefix_refl _, fun _ => ⟨rfl, rfl⟩⟩

theorem Body.Extends.trans {a b c : Body Entry} (h : a.Extends b) (h' : b.Extends c) :
    a.Extends c := by
  refine ⟨h.imports.trans h'.imports, h.members.trans h'.members, fun some => ?_⟩
  have more : b.members ≠ [] := by
    rintro none
    exact some (List.prefix_nil.mp (none ▸ h.members))
  obtain ⟨imports, attributes⟩ := h.settled some
  obtain ⟨imports', attributes'⟩ := h'.settled more
  exact ⟨imports'.trans imports, attributes'.trans attributes⟩

theorem Partial.add_extends (role : Role) (awaits : role.Awaits p) (e : Entry) :
    p.body.Extends (role.add p [e]).body := by
  cases role
  · exact ⟨List.prefix_append _ _, List.prefix_refl _, fun some => absurd awaits.2 some⟩
  · exact ⟨List.prefix_refl _, List.prefix_refl _, fun some => absurd awaits some⟩
  · exact ⟨List.prefix_refl _, List.prefix_append _ _, fun _ => ⟨rfl, rfl⟩⟩

theorem rootOf_extends {q : Partial} (h : p.body.Extends q.body) (outer : List (Entry × Partial)) :
    (rootOf p outer).body.Extends (rootOf q outer).body := by
  cases outer with
  | nil => exact h
  | cons => exact .refl _

theorem read_extends {current : Partial} {outer : List (Entry × Partial)}
    (h : read current outer ls = .ok body) : (rootOf current outer).body.Extends body := by
  fun_induction read current outer ls with
  | case1 => cases h
  | case2 =>
    cases h
    exact .refl _
  | case3 current _ header parent outer ih | case4 current l rest _ header parent outer _ size ih =>
    exact (rootOf_extends (Partial.add_extends .member trivial _) outer).trans (ih h)
  | case5 => cases h
  | case6 => cases h
  | case7 current outer l rest _ e after item ih =>
    have awaits := (Partial.read_known item).2
    exact (rootOf_extends (Partial.add_extends .imported awaits e) outer).trans (ih h)
  | case8 current outer l rest _ e after item ih =>
    have awaits := (Partial.read_known item).2
    exact (rootOf_extends (Partial.add_extends .attribute awaits e) outer).trans (ih h)
  | case9 current outer l rest _ e after item ih =>
    exact (rootOf_extends (Partial.add_extends .member trivial e) outer).trans (ih h)
  | case10 current outer l rest _ header scope braced after item ih => exact ih h

theorem exists_importEnd (d : UsingDeclaration) : ∃ l tail,
    d.lexemes = d.lexemes.takeWhile isInner ++ l :: tail ∧ l.isInner = false := by
  cases shape : d.lexemes.dropWhile isInner with
  | nil =>
    have all := List.dropWhile_eq_nil_iff.mp shape (mark ";") (by simp [UsingDeclaration.lexemes])
    cases all
  | cons l tail =>
    refine ⟨l, tail, by rw [← shape, List.takeWhile_append_dropWhile], ?_⟩
    have stops := List.head?_dropWhile_not isInner d.lexemes
    simpa [shape] using stops

/-- Taken for an import, a declaration ends at its first semicolon, which no brace may precede. -/
theorem readImport_declaration {after : List Lexeme} {item : Item}
    (h : readImport (d.lexemes ++ rest) = .ok (item, after)) :
    d.lexemes[d.importLength]?.any (·.is ";") ∧ ∃ e : Entry, item = .imported e ∧
      e.kind = .imported .plainUsing ∧ e.body = none ∧ e.size = d.importLength + 1 := by
  obtain ⟨l, tail, shape, stops⟩ := exists_importEnd d
  have inner : ∀ l ∈ d.lexemes.takeWhile isInner, l.isInner :=
    fun l mem => List.mem_takeWhile_imp mem
  have passed : afterSemicolon (d.lexemes ++ rest) = afterSemicolon (l :: (tail ++ rest)) := by
    conv => lhs; rw [shape]
    rw [List.append_assoc, afterSemicolon_append inner, List.cons_append]
  have found : d.lexemes[d.importLength]? = some l := by
    conv => lhs; lhs; rw [shape]
    simp [UsingDeclaration.importLength]
  have length : d.lexemes.length = d.importLength + 1 + tail.length := by
    conv => lhs; rw [shape]
    simp [UsingDeclaration.importLength, Nat.add_right_comm, Nat.add_assoc]
  cases semicolon : l.is ";" with
  | false =>
    have brace : (l.is "\x7b" || l.is "\x7d") = true := by
      simpa only [isInner, semicolon, Bool.false_or, Bool.not_eq_false'] using stops
    rw [readImport, passed, afterSemicolon] at h
    simp only [semicolon, brace, Bool.false_eq_true, if_true, if_false] at h
    cases h
  | true =>
    rw [readImport, passed, afterSemicolon] at h
    simp only [semicolon, if_true] at h
    cases h
    refine ⟨by rw [found]; exact semicolon, _, rfl, rfl, rfl, ?_⟩
    simp only [extent, List.length_append, length]
    omega

def Partial.begun (imports : List Entry) (d : UsingDeclaration) : Partial :=
  ⟨.compilationUnit, { braced := false, imports := imports, members := [statement d] }⟩

theorem ofLexemes_directives (directives : List ImportDirective) (rest : List Lexeme) :
    ∃ entries, ofLexemes (directives.flatMap ImportDirective.lexemes ++ rest) =
        read (Role.imported.add (.empty .compilationUnit false) entries) [] rest ∧
      Groups entries (directives.map ImportDirective.lexemes) ∧
      (Role.imported.add (.empty .compilationUnit false) entries).Preamble := by
  obtain ⟨entries, directed, grouped⟩ := read_directives
    (p := .empty .compilationUnit false) ⟨rfl, rfl, rfl⟩ directives rest
  exact ⟨entries, directed, grouped, rfl, rfl, rfl⟩

theorem ofLexemes_statement (directives : List ImportDirective) (brief : d.type.isBrief)
    (rest : List Lexeme) : ∃ entries, Groups entries (directives.map ImportDirective.lexemes) ∧
      ofLexemes (directives.flatMap ImportDirective.lexemes ++ (d.lexemes ++ rest)) =
        read (.begun entries d) [] rest := by
  obtain ⟨entries, directed, grouped, later⟩ := ofLexemes_directives directives (d.lexemes ++ rest)
  have starts : startsImport (d.lexemes ++ rest) = false := by
    rw [startsImport_declaration, brief]
    rfl
  have step := (later.read_member starts rfl).trans (readMember_declaration d rest)
  exact ⟨entries, grouped, directed.trans (read_item step rfl)⟩

theorem ofLexemes_imported (long : d.type.isBrief = false)
    (h : ofLexemes (directives.flatMap ImportDirective.lexemes ++ (d.lexemes ++ rest)) = .ok body) :
    d.lexemes[d.importLength]?.any (·.is ";") ∧
    ∃ entries e more, body.imports = entries ++ e :: more ∧
      Groups entries (directives.map ImportDirective.lexemes) ∧
      e.kind = .imported .plainUsing ∧ e.body = none ∧ e.size = d.importLength + 1 := by
  obtain ⟨entries, directed, grouped, later⟩ := ofLexemes_directives directives (d.lexemes ++ rest)
  have starts : startsImport (d.lexemes ++ rest) := by
    rw [startsImport_declaration, long]
    rfl
  rw [directed] at h
  cases imported : readImport (d.lexemes ++ rest) with
  | error fault =>
    have stopped := read_unclosed _ [] rfl _ |>.trans
      (congrArg (Except.bind · _) ((later.read_import starts).trans imported))
    cases h.symm.trans stopped
  | ok found =>
    obtain ⟨item, after⟩ := found
    obtain ⟨ended, e, rfl, kind, plain, size⟩ := readImport_declaration imported
    rw [read_item ((later.read_import starts).trans imported) rfl] at h
    obtain ⟨more, extended⟩ := (read_extends h).imports
    refine ⟨ended, entries, e, more, ?_, grouped, kind, plain, size⟩
    rw [← extended]
    simp [rootOf, Item.enter, Partial.addImport, Role.add, Partial.empty]

theorem countAll_directives (h : Groups entries (directives.map ImportDirective.lexemes)) :
    Entry.countAll entries = (directives.flatMap ImportDirective.lexemes).length := by
  induction directives generalizing entries with
  | nil =>
    cases h
    rfl
  | cons i directives ih =>
    cases h with
    | cons taken others =>
      rw [Entry.countAll, Entry.count_of_no_body taken.2, taken.1, ih others, List.flatMap_cons,
        List.length_append]

theorem length_directives (h : Groups entries (directives.map ImportDirective.lexemes)) :
    entries.length = directives.length :=
  (List.Forall₂.length_eq h).trans (List.length_map _)

theorem Entry.buildAll_length (es : List Entry) (ts : List PlacedToken) :
    (Entry.buildAll es ts).1.length = es.length := by
  simpa using congrArg List.length (Entry.buildAll_kind es ts)

end Outline

def Decl.face (d : Decl) : DeclKind × String :=
  (d.kind, d.text)

theorem Block.arrange_members {b : Block Decl} (guarded : b.membersGuarded)
    (roots : List String) : (b.arrange roots).members = b.members := by
  rw [arrange, if_pos guarded, sortImports]
  split <;> rfl

namespace SourceFile

open Outline PlacedToken

variable {file : SourceFile}

theorem parse_outline {source : List Char} {symbols : List String} {stream : TokenStream}
    (lexed : tokenize (if source.head? == some CSharpTidy.byteOrderMark then source.tail
      else source) symbols = .ok stream) (h : parse source symbols = .ok file) :
    ∃ body, ofLexemes (stream.tokens.map Token.toLexeme) = .ok body ∧
      file.root.imports.map Decl.face =
        (Entry.buildAll body.imports (place stream.tokens)).1.map Decl.face ∧
      file.root.members.map Decl.face =
        (Entry.buildAll body.members ((place stream.tokens).drop
          (Entry.countAll body.imports + Entry.countAll body.attributes))).1.map Decl.face := by
  obtain ⟨stream', inner, lexed', built, rfl⟩ := parse_stream h
  cases lexed.symm.trans lexed'
  obtain ⟨body, outlined, rfl⟩ := ofTokens_outline built
  obtain ⟨imports, -, members⟩ := Header.detach_map (f := Decl.face) (fun _ _ _ => rfl)
    { (body.build [] (place stream.tokens)).block with closeLeading := stream.tail }
  obtain ⟨braced, bodyImports, attributes, bodyMembers, closing⟩ := body
  refine ⟨_, outlined, imports, members.trans ?_⟩
  simp only [Body.build, Entry.buildAll_rest, List.drop_drop]

theorem reorganize_members (guarded : file.root.membersGuarded) (roots : List String) :
    (file.reorganize roots).root.members =
      file.root.members.map (Decl.mapBlocks (Block.arrange roots)) := by
  have mapped := (Block.membersGuarded_mapBlocks (Block.arrange roots) file.root).trans guarded
  show (Block.mapBlocks (Block.arrange roots) file.root).members = _
  rw [Block.mapBlocks_eq, Block.arrange_members mapped]

/-- Behind using directives, a resource declaration whose type is a tuple or a single word is the
first member of the file, a statement, and pins the members. With any other type it is the next
import, up to its first semicolon, and a brace in front of that is an error. -/
theorem parse_usingDeclaration {source : List Char} {symbols : List String} {stream : TokenStream}
    (lexed : tokenize (if source.head? == some CSharpTidy.byteOrderMark then source.tail
      else source) symbols = .ok stream)
    (directives : List ImportDirective) (d : UsingDeclaration) (rest : List Lexeme)
    (spelt : stream.tokens.map Token.toLexeme =
      directives.flatMap ImportDirective.lexemes ++ (d.lexemes ++ rest)) :
    let own := (place stream.tokens).drop (directives.flatMap ImportDirective.lexemes).length
    (d.type.isBrief → (∃ entries, ofLexemes (stream.tokens.map Token.toLexeme) =
        Outline.read (.begun entries d) [] rest) ∧
      ∀ file, parse source symbols = .ok file →
        file.root.imports.length = directives.length ∧
        (∃ m others, file.root.members = m :: others ∧ m.kind = .other .statement ∧
          m.text = join (own.take d.lexemes.length)) ∧
        ∀ roots, (file.reorganize roots).root.members =
          file.root.members.map (Decl.mapBlocks (Block.arrange roots))) ∧
    (d.type.isBrief = false → ∀ file, parse source symbols = .ok file →
      d.lexemes[d.importLength]?.any (·.is ";") ∧
      ∃ i, file.root.imports[directives.length]? = some i ∧ i.kind = .imported .plainUsing ∧
        i.text = join (own.take (d.importLength + 1))) := by
  intro own
  refine ⟨fun brief => ?_, fun long file parsed => ?_⟩
  · obtain ⟨entries, grouped, outlined⟩ := ofLexemes_statement directives brief rest
    refine ⟨⟨entries, by rw [spelt, outlined]⟩, fun file parsed => ?_⟩
    obtain ⟨body, built, imports, members⟩ := parse_outline lexed parsed
    rw [spelt, outlined] at built
    have extended := read_extends built
    obtain ⟨sameImports, sameAttributes⟩ := extended.settled (List.cons_ne_nil _ _)
    obtain ⟨more, laterMembers⟩ := extended.members
    have imported : body.imports = entries := sameImports
    have unattributed : body.attributes = [] := sameAttributes
    have listed : body.members = statement d :: more := laterMembers.symm
    have passed : Entry.countAll body.imports + Entry.countAll body.attributes =
        (directives.flatMap ImportDirective.lexemes).length := by
      rw [imported, unattributed, countAll_directives grouped]
      rfl
    rw [listed, passed, Entry.buildAll, Entry.build_plain (e := statement d) rfl, List.map_cons]
      at members
    obtain ⟨m, others, shape, face, -⟩ := List.map_eq_cons_iff.mp members
    obtain ⟨kind, text⟩ := Prod.mk.inj face
    have guarded : file.root.membersGuarded := by
      simp [Block.membersGuarded, shape, kind, statement]
    refine ⟨?_, ⟨m, others, shape, kind, text⟩, reorganize_members guarded⟩
    have lengths := congrArg List.length imports
    rw [List.length_map, List.length_map, Entry.buildAll_length, imported] at lengths
    exact lengths.trans (length_directives grouped)
  · obtain ⟨body, built, imports, -⟩ := parse_outline lexed parsed
    rw [spelt] at built
    obtain ⟨ended, entries, e, more, shape, grouped, kind, plain, size⟩ :=
      ofLexemes_imported long built
    have before : (Entry.buildAll entries (place stream.tokens)).1.length = directives.length :=
      (Entry.buildAll_length entries _).trans (length_directives grouped)
    have faced : (file.root.imports.map Decl.face)[directives.length]? =
        some (e.build own).1.face := by
      rw [imports, shape, Entry.buildAll_append, ← before, countAll_directives grouped]
      simp [Entry.buildAll, own]
    rw [List.getElem?_map, Option.map_eq_some_iff] at faced
    obtain ⟨i, found, face⟩ := faced
    rw [Entry.build_plain plain, size] at face
    obtain ⟨importKind, text⟩ := Prod.mk.inj face
    exact ⟨ended, i, found, importKind.trans kind, text⟩

/-- The same declaration with a single word and with a dotted name for its type. -/
theorem parse_usingDeclaration_two_types :
    (∃ file m others, parse "using B;\nusing var x = Open();\n".toList [] = .ok file ∧
      file.root.imports.length = 1 ∧ file.root.members = m :: others ∧
      m.kind = .other .statement ∧ m.text = "using var x = Open();") ∧
    ∃ file i, parse "using B;\nusing A.R x = Open();\n".toList [] = .ok file ∧
      file.root.imports[1]? = some i ∧ i.kind = .imported .plainUsing ∧
      i.text = "using A.R x = Open();" := by
  let word (text : String) : Lexeme := ⟨.word, text⟩
  let directive : ImportDirective := ⟨[word "using", word "B"], by decide, by decide⟩
  let declared (type : TypeSyntax) : UsingDeclaration :=
    ⟨type, ⟨"x", by decide⟩, word "Open" :: .mark "(" :: ([] ++ [.mark ")"]),
      .plain (by decide) (by decide) (.group (p := ("(", ")")) (by decide) .nil .nil)⟩
  let brief : TypeSyntax := .named ⟨⟨"var", by decide⟩, []⟩ [] []
  let dotted : TypeSyntax := .named ⟨⟨"A", by decide⟩, []⟩ [(.dot, ⟨⟨"R", by decide⟩, []⟩)] []
  constructor
  · have spelt : (tokenize "using B;\nusing var x = Open();\n".toList []).toOption.map
        (fun s => (s.tokens.map Token.toLexeme, join (((place s.tokens).drop 3).take 8))) =
        some ([directive].flatMap ImportDirective.lexemes ++ ((declared brief).lexemes ++ []),
          "using var x = Open();") := by decide +kernel
    obtain ⟨stream, found, shape⟩ := Option.map_eq_some_iff.mp spelt
    obtain ⟨lexemes, text⟩ := Prod.mk.inj shape
    obtain ⟨file, parsed⟩ := ok_of_isOk (e := parse "using B;\nusing var x = Open();\n".toList [])
      (by decide +kernel)
    have result := @parse_usingDeclaration "using B;\nusing var x = Open();\n".toList [] stream
      (eq_ok_of_toOption found) [directive] (declared brief) [] lexemes
    obtain ⟨imports, ⟨m, others, members, kind, own⟩, -⟩ := (result.1 rfl).2 file parsed
    exact ⟨file, m, others, parsed, imports, members, kind, own.trans text⟩
  · have spelt : (tokenize "using B;\nusing A.R x = Open();\n".toList []).toOption.map
        (fun s => (s.tokens.map Token.toLexeme, join (((place s.tokens).drop 3).take 10))) =
        some ([directive].flatMap ImportDirective.lexemes ++ ((declared dotted).lexemes ++ []),
          "using A.R x = Open();") := by decide +kernel
    obtain ⟨stream, found, shape⟩ := Option.map_eq_some_iff.mp spelt
    obtain ⟨lexemes, text⟩ := Prod.mk.inj shape
    obtain ⟨file, parsed⟩ := ok_of_isOk (e := parse "using B;\nusing A.R x = Open();\n".toList [])
      (by decide +kernel)
    have result := @parse_usingDeclaration "using B;\nusing A.R x = Open();\n".toList [] stream
      (eq_ok_of_toOption found) [directive] (declared dotted) [] lexemes
    obtain ⟨-, i, next, kind, own⟩ := result.2 rfl file parsed
    exact ⟨file, i, parsed, next, kind, own.trans text⟩

end SourceFile

end CSharpTidy
