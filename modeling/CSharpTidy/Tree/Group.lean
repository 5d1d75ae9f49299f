import CSharpTidy.Token.Basic

/- Groups of lexemes between brackets. A search starts behind the opener, counts the groups that
   open inside, and gives the lexemes behind the closer. -/
namespace CSharpTidy.Lexeme

def startsWith (ls : List Lexeme) (text : String) : Bool :=
  ls.head?.any (·.is text)

def startsWithWord (ls : List Lexeme) : Bool :=
  ls.head?.any isWord

def afterGroup (opener closer : String) : Nat → List Lexeme → Option (List Lexeme)
  | _, [] => none
  | inner, l :: rest =>
      if l.is opener then afterGroup opener closer (inner + 1) rest
      else if l.is closer then
        match inner with
        | 0 => some rest
        | inner + 1 => afterGroup opener closer inner rest
      else afterGroup opener closer inner rest

/-- The lexemes behind a type argument list. Only names, dots, commas and the marks of types may
stand in one; at anything else the angle bracket was no opener. -/
def afterAngles : Nat → List Lexeme → Option (List Lexeme)
  | _, [] => none
  | inner, l :: rest =>
      if l.isWord then afterAngles inner rest
      else if l.text == "<" then afterAngles (inner + 1) rest
      else if l.text == ">" then
        match inner with
        | 0 => some rest
        | inner + 1 => afterAngles inner rest
      else if [",", ".", "?", "[", "]", "(", ")", "::", "*"].contains l.text then
        afterAngles inner rest
      else none

/-- The lexemes of a group that starts `ls` and is followed by its closer and `after`. -/
def inside (ls after : List Lexeme) : List Lexeme :=
  ls.take (ls.length - (after.length + 1))

def commas : Nat → List Lexeme → Nat
  | _, [] => 0
  | inner, l :: rest =>
      if !l.isPunct then commas inner rest
      else if ["(", "[", "\x7b", "<"].contains l.text then commas (inner + 1) rest
      else if [")", "]", "\x7d", ">"].contains l.text then commas (inner - 1) rest
      else if l.text == "," && inner == 0 then commas inner rest + 1
      else commas inner rest

def listLength (ls : List Lexeme) : Nat :=
  if ls.isEmpty then 0 else commas 0 ls + 1

theorem afterGroup_length {opener closer : String} {inner : Nat} {ls after : List Lexeme}
    (h : afterGroup opener closer inner ls = some after) : after.length < ls.length := by
  fun_induction afterGroup opener closer inner ls <;> grind

theorem afterAngles_length {inner : Nat} {ls after : List Lexeme}
    (h : afterAngles inner ls = some after) : after.length < ls.length := by
  fun_induction afterAngles inner ls <;> grind

end CSharpTidy.Lexeme
