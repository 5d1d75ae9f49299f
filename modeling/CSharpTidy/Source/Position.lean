/- Line breaks and 1-based positions. A carriage return followed by a line feed is one break,
   and the break belongs to the line feed. -/
namespace CSharpTidy

def isLineBreak (c : Char) : Bool :=
  c == '\n' || c == '\r'

structure Position where
  line : Nat
  column : Nat
  deriving DecidableEq, Repr

namespace Position

def start : Position := ⟨1, 1⟩

/-- Position after `c`, where `next` is the character that follows it. -/
def step (p : Position) (c : Char) (next : Option Char) : Position :=
  if c == '\n' || (c == '\r' && next != some '\n') then ⟨p.line + 1, 1⟩
  else ⟨p.line, p.column + 1⟩

def advance (p : Position) : List Char → List Char → Position
  | [], _ => p
  | c :: text, rest => (p.step c (text.head?.or rest.head?)).advance text rest

end Position

/-- Splits one line break off the front: a carriage return takes a following line feed along. -/
def splitBreak : List Char → List Char × List Char
  | '\r' :: '\n' :: rest => (['\r', '\n'], rest)
  | c :: rest => ([c], rest)
  | [] => ([], [])

theorem splitBreak_append (s : List Char) : (splitBreak s).1 ++ (splitBreak s).2 = s := by
  fun_cases splitBreak s <;> rfl

theorem splitBreak_rest_length (c : Char) (s : List Char) :
    (splitBreak (c :: s)).2.length < (c :: s).length := by
  unfold splitBreak
  split
  · simp_all only [List.length_cons]
    omega
  · simp_all
  · simp_all

def textBefore (s rest : List Char) : List Char :=
  s.take (s.length - rest.length)

end CSharpTidy
