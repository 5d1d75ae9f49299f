import CSharpTidy.Toml.Table
import CSharpTidy.Toml.Text

/- TOML documents. Every reader gives what it read and the input behind it; a loop goes on only
   while the input gets shorter. -/
namespace CSharpTidy.Toml

/-- How many brackets and braces may be open at once, and how many parts a key may have. -/
def maxNesting : Nat := 79

def isBareKeyChar (c : Char) : Bool :=
  c.isAlphanum || c == '_' || c == '-'

def keyPart? : List Char → Reading
  | '"' :: rest => quoted rest
  | '\'' :: rest => literal rest
  | s =>
      match s.takeWhile isBareKeyChar with
      | [] => none
      | part => some (part, s.dropWhile isBareKeyChar)

def key? (s : List Char) : Option (List String × List Char) :=
  match keyPart? (skipWs s) with
  | none => none
  | some (part, rest) =>
      match skipWs rest with
      | '.' :: more =>
          if _shorter : more.length < s.length then
            (key? more).map fun r => (String.ofList part :: r.1, r.2)
          else none
      | rest => some ([String.ofList part], rest)
termination_by s.length

def dottedKey? (s : List Char) : Option (List String × String × List Char) :=
  match key? s with
  | none => none
  | some (parts, rest) =>
      if maxNesting < parts.length then none
      else parts.getLast?.map fun last => (parts.dropLast, last, rest)

def skipFiller (s : List Char) : Option (List Char) :=
  match afterComment (skipWs s) with
  | [] => if (skipWs s).isEmpty then some [] else none
  | c :: rest =>
      match newline? (c :: rest) with
      | some more => if _shorter : more.length < s.length then skipFiller more else none
      | none => if (skipWs s).head? == some '#' || c == '\r' then none else some (c :: rest)
termination_by s.length

def items? (item : List Char → Option (Value × List Char)) (s : List Char) :
    Option (List Value × List Char) :=
  match skipFiller s with
  | none => none
  | some (']' :: rest) => some ([], rest)
  | some start =>
      match item start with
      | none => none
      | some (value, rest) =>
          match skipFiller rest with
          | some (']' :: rest) => some ([value], rest)
          | some (',' :: rest) =>
              if _shorter : rest.length < s.length then
                (items? item rest).map fun r => (value :: r.1, r.2)
              else none
          | _ => none
termination_by s.length

def pair? (item : List Char → Option (Value × List Char)) (s : List Char) :
    Option (List String × String × Value × List Char) :=
  match dottedKey? s with
  | none => none
  | some (path, key, rest) =>
      match rest with
      | '=' :: rest => (item (skipWs rest)).map fun r => (path, key, r.1, r.2)
      | _ => none

def pairs? (item : List Char → Option (Value × List Char)) (entries : Entries) (s : List Char) :
    Option (Entries × List Char) :=
  match pair? item s with
  | none => none
  | some (path, key, value, rest) =>
      match entries.insert path key value with
      | none => none
      | some entries =>
          match skipWs rest with
          | '}' :: rest => some (entries, rest)
          | ',' :: rest =>
              if _shorter : rest.length < s.length then pairs? item entries rest else none
          | _ => none
termination_by s.length

/-- A value with at most `depth` brackets and braces open in it. -/
def value? (depth : Nat) (s : List Char) : Option (Value × List Char) :=
  match s, depth with
  | '[' :: _, 0 => none
  | '[' :: rest, depth + 1 => (items? (value? depth) rest).map fun r => (.array r.1, r.2)
  | '{' :: _, 0 => none
  | '{' :: rest, depth + 1 =>
      match skipWs rest with
      | '}' :: rest => some (.table .braces [], rest)
      | _ => (pairs? (value? depth) [] rest).map fun r => (.table .braces r.1, r.2)
  | _, _ =>
      match string? s with
      | some (text, rest) => some (.text (String.ofList text), rest)
      | none => (scalar? s).map fun rest => (.scalar, rest)

structure Document where
  entries : Entries := []
  current : List String := []

namespace Document

/-- A header in brackets, from behind them; a second pair opens a table of an array. -/
def header? (d : Document) (s : List Char) : Option (Document × List Char) :=
  let (double, s) := match s with
    | '[' :: rest => (true, rest)
    | s => (false, s)
  match dottedKey? s with
  | none => none
  | some (path, key, rest) =>
      let opened := if double then d.entries.openArrayTable path key
        else d.entries.openTable path key
      let closed := match double, rest with
        | true, ']' :: ']' :: rest => some rest
        | false, ']' :: rest => some rest
        | _, _ => none
      match opened, closed with
      | some entries, some rest => some (⟨entries, path ++ [key]⟩, rest)
      | _, _ => none

def pair? (d : Document) (s : List Char) : Option (Document × List Char) :=
  match Toml.pair? (value? maxNesting) s with
  | none => none
  | some (path, key, value, rest) =>
      let change := fun (_ : Origin) (inner : Entries) => inner.insert path key value
      (Entries.descend false change d.current .header d.entries).map fun entries =>
        ({ d with entries }, rest)

def line? (d : Document) (s : List Char) : Option (Document × List Char) :=
  let read := match skipWs s with
    | [] | '#' :: _ | '\n' :: _ | '\r' :: _ => some (d, s)
    | '[' :: rest => d.header? rest
    | start => d.pair? start
  match read with
  | none => none
  | some (d, rest) => (lineEnd? rest).map fun rest => (d, rest)

def read? (d : Document) (s : List Char) : Option Document :=
  if s.isEmpty then some d
  else
    match d.line? s with
    | none => none
    | some (d, rest) => if _shorter : rest.length < s.length then d.read? rest else none
termination_by s.length

end Document

def parse? (s : List Char) : Option Entries :=
  let s := match s with
    | '\ufeff' :: rest => rest
    | s => s
  (Document.read? {} s).map Document.entries

end CSharpTidy.Toml
