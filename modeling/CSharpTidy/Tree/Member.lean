import CSharpTidy.Tree.Decl
import CSharpTidy.Tree.Group

/- Which kind of member a run of lexemes declares, and under which key. Attributes and modifiers
   are left out; what fits no shape is kept verbatim as `unknown`. -/
namespace CSharpTidy

inductive Scope where
  | compilationUnit | namespaceBody | typeBody
  deriving DecidableEq, Repr

def modifiers : List String :=
  ["public", "private", "protected", "internal", "static", "readonly", "const", "volatile",
   "virtual", "override", "abstract", "sealed", "extern", "unsafe", "new", "partial", "async",
   "required", "file", "fixed", "ref"]

def Lexeme.isModifier (l : Lexeme) : Bool :=
  l.isWord && modifiers.contains l.text

namespace Member

open Lexeme

def typeArguments : List Lexeme → Option (Nat × List Lexeme)
  | [] => some (0, [])
  | l :: rest =>
      if l.is "<" then
        match afterAngles 0 rest with
        | none => none
        | some after => some (listLength (inside rest after), after)
      else some (0, l :: rest)

theorem typeArguments_length_le {ls after : List Lexeme} {n : Nat}
    (h : typeArguments ls = some (n, after)) : after.length ≤ ls.length := by
  fun_cases typeArguments ls <;> grind [typeArguments, → afterAngles_length]

def afterTypeName (ls : List Lexeme) : Option (List Lexeme) :=
  match _arguments : typeArguments ls with
  | none => none
  | some (_, dot :: word :: rest) =>
      if (dot.is "." || dot.is "::") && word.isWord then afterTypeName rest
      else some (dot :: word :: rest)
  | some (_, rest) => some rest
termination_by ls.length
decreasing_by
  exact Nat.lt_of_lt_of_le (Nat.lt_succ_of_lt (Nat.lt_succ_self _))
    (typeArguments_length_le _arguments)

def afterTypeMarks (ls : List Lexeme) : Option (List Lexeme) :=
  match ls with
  | [] => some []
  | l :: rest =>
      if l.is "?" || l.is "*" then afterTypeMarks rest
      else if l.is "[" && (startsWith rest "]" || startsWith rest ",") then
        match _group : afterGroup "[" "]" 0 rest with
        | none => none
        | some after => afterTypeMarks after
      else some (l :: rest)
termination_by ls.length
decreasing_by
  · exact Nat.lt_succ_self _
  · exact Nat.lt_succ_of_lt (afterGroup_length _group)

def afterType : List Lexeme → Option (List Lexeme)
  | [] => none
  | l :: rest =>
      if l.is "(" then (afterGroup "(" ")" 0 rest).bind afterTypeMarks
      else if l.isWord then (afterTypeName rest).bind afterTypeMarks
      else none

inductive Name where
  | named (name : String) (typeParams : Nat) (rest : List Lexeme)
  | indexer
  | operator
  | unknown

/-- The name of a member. In a qualified name the last word counts. -/
def name (ls : List Lexeme) : Name :=
  match ls with
  | [] => .unknown
  | word :: rest =>
      match _arguments : typeArguments rest with
      | none => .unknown
      | some (typeParams, []) => .named word.text typeParams []
      | some (typeParams, l :: qualified) =>
          if !l.is "." then .named word.text typeParams (l :: qualified)
          else if startsWith qualified "this" then .indexer
          else if startsWith qualified "operator" then .operator
          else if startsWithWord qualified then name qualified
          else .unknown
termination_by ls.length
decreasing_by
  have := typeArguments_length_le _arguments
  simp only [List.length_cons] at this ⊢
  omega

/-- Number of parameters in the list that opens before `ls`; none when it is never closed. -/
def params (ls : List Lexeme) : Nat :=
  match afterGroup "(" ")" 0 ls with
  | some after => listLength (inside ls after)
  | none => 0

def other (kind : OtherKind) : DeclKind × DeclKey :=
  (.other kind, {})

def ofName (name : String) (typeParams : Nat) : List Lexeme → DeclKind × DeclKey
  | [] => other .unknown
  | l :: rest =>
      if l.is "(" then (.method, ⟨name, typeParams, params rest⟩)
      else if 0 < typeParams then other .unknown
      else if l.is "\x7b" || l.is "=>" then (.property, ⟨name, 0, 0⟩)
      else if l.is ";" || l.is "=" || l.is "," || l.is "[" then (.field, ⟨name, 0, 0⟩)
      else other .unknown

def ofTypedMember (ls : List Lexeme) : DeclKind × DeclKey :=
  match afterType ls with
  | none => other .unknown
  | some rest =>
      if startsWith rest "operator" then other .operator
      else if startsWith rest "this" then other .indexer
      else if !startsWithWord rest then other .unknown
      else
        match name rest with
        | .named name typeParams after => ofName name typeParams after
        | .indexer => other .indexer
        | .operator => other .operator
        | .unknown => other .unknown

/-- A member of a type. A word before a parameter list is a constructor. -/
def ofTypeMember : List Lexeme → DeclKind × DeclKey
  | word :: paren :: rest =>
      if word.isWord && paren.is "(" then (.constructor, ⟨word.text, 0, params rest⟩)
      else ofTypedMember (word :: paren :: rest)
  | ls => ofTypedMember ls

/-- Some members are told by their first word; outside of types nothing else is looked at. -/
def classify (scope : Scope) (ls : List Lexeme) : DeclKind × DeclKey :=
  match ls.head?.map Lexeme.text with
  | some "delegate" => other .delegate
  | some "event" => other .event
  | some "~" => other .destructor
  | some "implicit" => other .operator
  | some "explicit" => other .operator
  | _ =>
      match scope with
      | .compilationUnit => other .statement
      | .namespaceBody => other .unknown
      | .typeBody => ofTypeMember ls

end Member

end CSharpTidy
