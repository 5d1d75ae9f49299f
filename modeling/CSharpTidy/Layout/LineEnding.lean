/- Line endings: a fixed one, or the first one that the text uses. -/
namespace CSharpTidy

inductive LineEnding where
  | auto | lf | crlf
  deriving DecidableEq, Repr

namespace LineEnding

def name : LineEnding → String
  | .auto => "auto"
  | .lf => "lf"
  | .crlf => "crlf"

def ofName? (name : String) : Option LineEnding :=
  match name with
  | "auto" => some .auto
  | "lf" => some .lf
  | "crlf" => some .crlf
  | _ => none

/-- Reads a name in any case of ASCII letters; a wrong one is given back in lower case. -/
def parse (name : String) : Except String LineEnding :=
  let lower := String.ofList (name.toList.map Char.toLower)
  match ofName? lower with
  | some ending => .ok ending
  | none => .error lower

def invalidMessage (lower : String) : String :=
  s!"invalid line ending '{lower}' (expected auto, lf or crlf)"

def firstTerminator : List Char → String
  | [] => "\n"
  | '\r' :: '\n' :: _ => "\r\n"
  | '\r' :: _ => "\r"
  | '\n' :: _ => "\n"
  | _ :: rest => firstTerminator rest

def resolve (ending : LineEnding) (source : List Char) : String :=
  match ending with
  | .lf => "\n"
  | .crlf => "\r\n"
  | .auto => firstTerminator source

end LineEnding

end CSharpTidy
