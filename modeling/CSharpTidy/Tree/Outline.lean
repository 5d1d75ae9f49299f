import CSharpTidy.Source.ParseError
import CSharpTidy.Tree.Member

/- Which lexemes make up which declaration. The outline of a text depends on its lexemes alone;
   trivia and positions play no part. A declaration is counted in lexemes: its own up to the end
   of its text, then those of its body and of the closing brace. -/
namespace CSharpTidy.Outline

open Lexeme

/-- `closing` counts the lexemes of the closing text, of which a body without braces has none. -/
structure Body (ε : Type) where
  braced : Bool
  imports : List ε := []
  attributes : List ε := []
  members : List ε := []
  closing : Nat := 0
  deriving Repr

structure Entry where
  kind : DeclKind
  visibility : Visibility := .unmarked
  key : DeclKey := {}
  size : Nat
  body : Option (Body Entry) := none
  deriving Repr

/-- Why lexemes have no outline: one cannot stand where it does (the lexemes from it on are
given), or the end came too early. -/
inductive Fault where
  | unexpected (found : Lexeme) (rest : List Lexeme)
  | endOfFile (expected : Expected)
  deriving DecidableEq, Repr

def extent (ls rest : List Lexeme) : Nat :=
  ls.length - rest.length

def afterSemicolon : List Lexeme → Except Fault (List Lexeme)
  | [] => .error (.endOfFile .semicolon)
  | l :: rest =>
      if l.is ";" then .ok rest
      else if l.is "\x7b" || l.is "\x7d" then .error (.unexpected l rest)
      else afterSemicolon rest

def afterAttributes (ls : List Lexeme) : Except Fault (List Lexeme) :=
  match ls with
  | [] => .ok []
  | l :: rest =>
      if l.is "[" then
        match _group : afterGroup "[" "]" 0 rest with
        | none => .error (.endOfFile .closeBracket)
        | some after => afterAttributes after
      else .ok (l :: rest)
termination_by ls.length
decreasing_by exact Nat.lt_succ_of_lt (afterGroup_length _group)

def headerEnd : Nat → List Lexeme → Except Fault (Lexeme × List Lexeme)
  | _, [] => .error (.endOfFile .bodyOrSemicolon)
  | depth, l :: rest =>
      if !l.isPunct then headerEnd depth rest
      else if l.text == "(" || l.text == "[" then headerEnd (depth + 1) rest
      else if l.text == ")" || l.text == "]" then headerEnd (depth - 1) rest
      else if (l.text == "\x7b" || l.text == ";") && depth == 0 then .ok (l, rest)
      else if l.text == "\x7d" then .error (.unexpected l rest)
      else headerEnd depth rest

/-- The lexemes behind a field, property, method or statement. Outside of brackets it ends with
a semicolon or, before any initialiser, with a brace group that no initialiser follows. -/
def afterMember (depth : Nat) (initialiser : Bool) (ls : List Lexeme) :
    Except Fault (List Lexeme) :=
  match ls with
  | [] => .error (.endOfFile .semicolonOrBrace)
  | l :: rest =>
      if !l.isPunct then afterMember depth initialiser rest
      else if l.text == "(" || l.text == "[" then afterMember (depth + 1) initialiser rest
      else if l.text == ")" || l.text == "]" then
        match depth with
        | 0 => .error (.unexpected l rest)
        | depth + 1 => afterMember depth initialiser rest
      else if (l.text == "=" || l.text == "=>") && depth == 0 then afterMember depth true rest
      else if l.text == ";" && depth == 0 then .ok rest
      else if l.text == "\x7b" then
        match _group : afterGroup "\x7b" "\x7d" 0 rest with
        | none => .error (.endOfFile .closeBrace)
        | some after =>
            if depth == 0 && !initialiser then
              if startsWith after "=" then afterMember depth true after else .ok after
            else afterMember depth initialiser after
      else if l.text == "\x7d" then .error (.unexpected l rest)
      else afterMember depth initialiser rest
termination_by ls.length
decreasing_by
  all_goals first
    | exact Nat.lt_succ_self _
    | exact Nat.lt_succ_of_lt (afterGroup_length _group)

/-- Commas of the type parameter list that opens before `ls`, up to its end or to the end of the
header. -/
def typeParamCommas : Nat → List Lexeme → Nat
  | _, [] => 0
  | inner, l :: rest =>
      if l.is "<" then typeParamCommas (inner + 1) rest
      else if l.is ">" then
        match inner with
        | 0 => 0
        | inner + 1 => typeParamCommas inner rest
      else if l.is "," && inner == 0 then typeParamCommas inner rest + 1
      else if l.is "\x7b" || l.is ";" then 0
      else typeParamCommas inner rest

def joinTexts (ls : List Lexeme) : String :=
  String.join (ls.map Lexeme.text)

def declaredKey (ls : List Lexeme) : DeclKey :=
  let name := joinTexts (ls.takeWhile fun l => l.isWord || l.is ".")
  match ls.dropWhile fun l => l.isWord || l.is "." with
  | l :: rest => if l.is "<" then ⟨name, typeParamCommas 0 rest + 1, 0⟩ else ⟨name, 0, 0⟩
  | [] => ⟨name, 0, 0⟩

def recordKey (ls : List Lexeme) : DeclKey :=
  if startsWith ls "struct" || startsWith ls "class" then declaredKey ls.tail
  else declaredKey ls

/-- A resource declaration or `using` block at the top of a file is a statement, which two words
or a parenthesis behind the keyword tell. -/
def startsUsing (ls : List Lexeme) : Bool :=
  startsWith ls "using" &&
    (startsWith ls.tail "static" || startsWith ls.tail "unsafe" ||
      !(startsWith ls.tail "(" || (startsWithWord ls.tail && startsWithWord ls.tail.tail)))

def startsImport (ls : List Lexeme) : Bool :=
  (startsWith ls "extern" && startsWith ls.tail "alias") ||
    startsUsing (if startsWith ls "global" then ls.tail else ls)

def importKind (ls : List Lexeme) : ImportKind :=
  if startsWith ls "extern" then .externAlias
  else if startsWith ls "global" then .globalUsing
  else .plainUsing

/-- The path of an import from behind its first word to its semicolon. An alias is not part of
it. -/
def importPath (ls : List Lexeme) : String :=
  let path := ls.dropWhile fun l =>
    l.is "using" || l.is "alias" || l.is "static" || l.is "unsafe"
  joinTexts (match path.dropWhile fun l => !l.is "=" with
    | _ :: target => target
    | [] => path)

def startsGlobalAttribute (ls : List Lexeme) : Bool :=
  startsWith ls "[" && (startsWith ls.tail "assembly" || startsWith ls.tail "module") &&
    startsWith ls.tail.tail ":"

/-- What one step reads: a whole declaration, or a container up to the start of its body. -/
inductive Item where
  | imported (entry : Entry)
  | attribute (entry : Entry)
  | member (entry : Entry)
  | container (header : Entry) (scope : Scope) (braced : Bool)

def readImport (ls : List Lexeme) : Except Fault (Item × List Lexeme) :=
  match afterSemicolon ls with
  | .error e => .error e
  | .ok rest =>
      let size := extent ls rest
      let path := importPath ((ls.take (size - 1)).drop 1)
      .ok (.imported
        { kind := .imported (importKind ls), key := ⟨path, 0, 0⟩, size := size }, rest)

def readGlobalAttribute (ls : List Lexeme) : Except Fault (Item × List Lexeme) :=
  match afterGroup "[" "]" 0 ls.tail with
  | none => .error (.endOfFile .closeBracket)
  | some rest =>
      .ok (.attribute { kind := .other .globalAttribute, size := extent ls rest }, rest)

/-- A container without a body is a whole declaration, but a namespace without one owns the rest
of the file. -/
def readContainer (kind : ContainerKind) (visibility : Visibility) (ls keyword : List Lexeme) :
    Except Fault (Item × List Lexeme) :=
  match headerEnd 0 keyword with
  | .error e => .error e
  | .ok (l, rest) =>
      let header : Entry :=
        { kind := .container kind, visibility := visibility, key := declaredKey keyword.tail,
          size := extent ls rest }
      let scope : Scope := if kind == .namespaceBody then .namespaceBody else .typeBody
      if l.text == "\x7b" then .ok (.container header scope true, rest)
      else if kind == .namespaceBody then .ok (.container header scope false, rest)
      else .ok (.member header, rest)

/-- A struct, record or enum is kept whole, with its body and a semicolon behind it. -/
def readWholeType (kind : DeclKind) (key : DeclKey) (visibility : Visibility)
    (ls keyword : List Lexeme) : Except Fault (Item × List Lexeme) :=
  let whole (rest : List Lexeme) : Item × List Lexeme :=
    (.member { kind := kind, visibility := visibility, key := key, size := extent ls rest }, rest)
  match headerEnd 0 keyword with
  | .error e => .error e
  | .ok (l, rest) =>
      if l.text == "\x7b" then
        match afterGroup "\x7b" "\x7d" 0 rest with
        | none => .error (.endOfFile .closeBrace)
        | some after =>
            .ok (whole (if startsWith after ";" then after.tail else after))
      else .ok (whole rest)

def readPlainMember (scope : Scope) (visibility : Visibility) (ls head : List Lexeme) :
    Except Fault (Item × List Lexeme) :=
  match afterMember 0 false head with
  | .error e => .error e
  | .ok rest =>
      let classified := Member.classify scope (head.take (extent head rest))
      .ok (.member
        { kind := classified.1, visibility := visibility, key := classified.2,
          size := extent ls rest }, rest)

def readMember (scope : Scope) (ls : List Lexeme) : Except Fault (Item × List Lexeme) :=
  match afterAttributes ls with
  | .error e => .error e
  | .ok unattributed =>
      let marks := unattributed.takeWhile Lexeme.isModifier
      let head := unattributed.dropWhile Lexeme.isModifier
      let visibility := Visibility.ofModifiers (marks.map Lexeme.text)
      if startsWith head "namespace" then readContainer .namespaceBody visibility ls head
      else if startsWith head "class" then readContainer .classBody visibility ls head
      else if startsWith head "interface" then readContainer .interfaceBody visibility ls head
      else if startsWith head "enum" then
        readWholeType .enum (declaredKey head.tail) visibility ls head
      else if startsWith head "struct" then
        readWholeType (.other .struct) (declaredKey head.tail) visibility ls head
      else if startsWith head "record" && startsWithWord head.tail then
        readWholeType (.other .record) (recordKey head.tail) visibility ls head
      else readPlainMember scope visibility ls head

theorem afterSemicolon_length {ls rest : List Lexeme} (h : afterSemicolon ls = .ok rest) :
    rest.length < ls.length := by
  fun_induction afterSemicolon ls <;> grind

theorem afterAttributes_length_le {ls rest : List Lexeme} (h : afterAttributes ls = .ok rest) :
    rest.length ≤ ls.length := by
  fun_induction afterAttributes ls <;> grind [→ afterGroup_length]

theorem headerEnd_length {depth : Nat} {ls rest : List Lexeme} {l : Lexeme}
    (h : headerEnd depth ls = .ok (l, rest)) : rest.length < ls.length := by
  fun_induction headerEnd depth ls <;> grind

theorem afterMember_length {depth : Nat} {initialiser : Bool} {ls rest : List Lexeme}
    (h : afterMember depth initialiser ls = .ok rest) : rest.length < ls.length := by
  fun_induction afterMember depth initialiser ls <;> grind [→ afterGroup_length]

theorem readImport_length {ls rest : List Lexeme} {item : Item}
    (h : readImport ls = .ok (item, rest)) : rest.length < ls.length := by
  unfold readImport at h
  split at h
  · cases h
  · rename_i found
    cases h
    exact afterSemicolon_length found

theorem readGlobalAttribute_length {ls rest : List Lexeme} {item : Item}
    (h : readGlobalAttribute ls = .ok (item, rest)) : rest.length < ls.length := by
  unfold readGlobalAttribute at h
  split at h
  · cases h
  · rename_i found
    cases h
    exact Nat.lt_of_lt_of_le (afterGroup_length found) (List.tail_sublist ls).length_le

theorem readContainer_length {kind : ContainerKind} {visibility : Visibility}
    {ls keyword rest : List Lexeme} {item : Item}
    (h : readContainer kind visibility ls keyword = .ok (item, rest)) :
    rest.length < keyword.length := by
  unfold readContainer at h
  split at h
  · cases h
  · rename_i found
    have := headerEnd_length found
    grind

theorem readWholeType_length {kind : DeclKind} {key : DeclKey} {visibility : Visibility}
    {ls keyword rest : List Lexeme} {item : Item}
    (h : readWholeType kind key visibility ls keyword = .ok (item, rest)) :
    rest.length < keyword.length := by
  unfold readWholeType at h
  simp only at h
  split at h
  · cases h
  · rename_i found
    have := headerEnd_length found
    split at h
    · split at h
      · cases h
      · rename_i after closed
        have := afterGroup_length closed
        have := (List.tail_sublist after).length_le
        grind
    · grind

theorem readPlainMember_length {scope : Scope} {visibility : Visibility}
    {ls head rest : List Lexeme} {item : Item}
    (h : readPlainMember scope visibility ls head = .ok (item, rest)) :
    rest.length < head.length := by
  unfold readPlainMember at h
  split at h
  · cases h
  · rename_i found
    cases h
    exact afterMember_length found

theorem readMember_length {scope : Scope} {ls rest : List Lexeme} {item : Item}
    (h : readMember scope ls = .ok (item, rest)) : rest.length < ls.length := by
  unfold readMember at h
  split at h
  · cases h
  · rename_i unattributed found
    have := afterAttributes_length_le found
    have := (List.dropWhile_suffix (l := unattributed) Lexeme.isModifier).length_le
    grind [→ readContainer_length, → readWholeType_length, → readPlainMember_length]

structure Partial where
  scope : Scope
  body : Body Entry

namespace Partial

def empty (scope : Scope) (braced : Bool) : Partial :=
  ⟨scope, { braced := braced }⟩

def addImport (p : Partial) (e : Entry) : Partial :=
  { p with body := { p.body with imports := p.body.imports ++ [e] } }

def addAttribute (p : Partial) (e : Entry) : Partial :=
  { p with body := { p.body with attributes := p.body.attributes ++ [e] } }

def addMember (p : Partial) (e : Entry) : Partial :=
  { p with body := { p.body with members := p.body.members ++ [e] } }

def addContainer (p : Partial) (header : Entry) (body : Body Entry) : Partial :=
  p.addMember { header with body := some body }

/-- Imports come before everything else, global attributes before members. -/
def read (p : Partial) (ls : List Lexeme) : Except Fault (Item × List Lexeme) :=
  let preamble := p.scope != .typeBody && p.body.members.isEmpty
  if preamble && p.body.attributes.isEmpty && startsImport ls then readImport ls
  else if preamble && p.scope == .compilationUnit && startsGlobalAttribute ls then
    readGlobalAttribute ls
  else readMember p.scope ls

theorem read_length {p : Partial} {ls rest : List Lexeme} {item : Item}
    (h : p.read ls = .ok (item, rest)) : rest.length < ls.length := by
  unfold read at h
  grind [→ readImport_length, → readGlobalAttribute_length, → readMember_length]

end Partial

/-- How many of the lexemes at the front close a braced body: a semicolon may follow the brace. -/
def closingSize (rest : List Lexeme) : Nat :=
  if startsWith rest ";" then 2 else 1

/-- Reads declarations into the innermost open body. `outer` holds the containers around it,
innermost first, each with the body that it will be a member of. -/
def read (current : Partial) (outer : List (Entry × Partial)) (ls : List Lexeme) :
    Except Fault (Body Entry) :=
  match ls with
  | [] =>
      if current.body.braced then .error (.endOfFile .closeBrace)
      else
        match outer with
        | [] => .ok current.body
        | (header, parent) :: outer => read (parent.addContainer header current.body) outer []
  | l :: rest =>
      if l.is "\x7d" then
        match current.body.braced, outer with
        | true, (header, parent) :: outer =>
            let size := closingSize rest
            read (parent.addContainer header { current.body with closing := size }) outer
              (rest.drop (size - 1))
        | _, _ => .error (.unexpected l rest)
      else
        match _item : current.read (l :: rest) with
        | .error e => .error e
        | .ok (.imported e, after) => read (current.addImport e) outer after
        | .ok (.attribute e, after) => read (current.addAttribute e) outer after
        | .ok (.member e, after) => read (current.addMember e) outer after
        | .ok (.container header scope braced, after) =>
            read (.empty scope braced) ((header, current) :: outer) after
termination_by 2 * ls.length + outer.length
decreasing_by
  · exact Nat.lt_succ_self _
  · simp only [wfParam, List.length_drop, List.length_cons]
    omega
  all_goals
    have := Partial.read_length _item
    simp only [List.length_cons] at this ⊢
    omega

def ofLexemes (ls : List Lexeme) : Except Fault (Body Entry) :=
  read (.empty .compilationUnit false) [] ls

end CSharpTidy.Outline
