import CSharpTidy.Settings.Basic
import CSharpTidy.Text.Split

/- Settings in a file's own text: a line comment that starts with the name of the tool and a
   colon. The first such line counts, even when it sets nothing. -/
namespace CSharpTidy

structure Overrides where
  ignore : Bool := false
  standardPrefixes : List String := []
  definedSymbols : List String := []
  lineEnding : Option LineEnding := none
  deriving DecidableEq, Repr

namespace Overrides

def isEmpty (o : Overrides) : Bool :=
  o == {}

/-- Prefixes replace those of the settings, symbols are added to them. -/
def applyTo (o : Overrides) (s : Settings) : Settings :=
  { s with
    standardPrefixes :=
      if o.standardPrefixes.isEmpty then s.standardPrefixes else o.standardPrefixes
    definedSymbols := o.definedSymbols.foldl
      (fun symbols symbol => if symbols.contains symbol then symbols else symbols ++ [symbol])
      s.definedSymbols
    lineEnding := o.lineEnding.getD s.lineEnding }

/-- Reads the words of a directive. Unknown ones are skipped, and so is an option without a
value, but a last `--line-ending` takes an earlier one back. -/
def read (o : Overrides) : List String → Overrides
  | [] => o
  | word :: rest =>
      if word == "ignore" || word == "off" then read { o with ignore := true } rest
      else if word == "--standard-prefix" then
        match rest with
        | value :: rest =>
            read { o with standardPrefixes := o.standardPrefixes ++ [value] } rest
        | [] => o
      else if word == "--define" then
        match rest with
        | value :: rest => read { o with definedSymbols := o.definedSymbols ++ [value] } rest
        | [] => o
      else if word == "--line-ending" then
        match rest with
        | value :: rest => read { o with lineEnding := (LineEnding.parse value).toOption } rest
        | [] => { o with lineEnding := none }
      else read o rest

end Overrides

namespace FileDirective

/-- Letters compare by simple case folding, under which a long s is an s too. -/
def foldsTo (c letter : Char) : Bool :=
  c.toLower == letter || (letter == 's' && c == '\u017f')

def afterWord : (word s : List Char) → Option (List Char)
  | [], s => some s
  | _ :: _, [] => none
  | letter :: word, c :: s => if foldsTo c letter then afterWord word s else none

def afterMarker (line : List Char) : Option (List Char) :=
  match Text.trimStart line with
  | '/' :: '/' :: rest => afterWord "csorganize:".toList (Text.trimStart rest)
  | _ => none

def text? (line : List Char) : Option (List Char) :=
  match afterMarker line with
  | none => none
  | some rest =>
      let text := Text.trim rest
      if text.contains '\n' then none else some text

def isDirective (line : List Char) : Bool :=
  (text? line).isSome

def parse (line : List Char) : Option Overrides :=
  match text? line with
  | none => none
  | some text =>
      let overrides := Overrides.read {} ((Text.words text).map String.ofList)
      if overrides.isEmpty then none else some overrides

/-- Byte order marks in front of a line are not looked at. -/
def withoutMarks (line : List Char) : List Char :=
  line.dropWhile (· == byteOrderMark)

def findIn : List (List Char) → Option Overrides
  | [] => none
  | line :: rest =>
      if isDirective (withoutMarks line) then parse (withoutMarks line) else findIn rest

def find (source : List Char) : Option Overrides :=
  findIn (Text.splitAt '\n' source)

/-- Lines of bytes, each with its line feed. `line` holds the current one, last byte first. -/
def byteLines (line : List UInt8) : List UInt8 → List (List UInt8)
  | [] => if line.isEmpty then [] else [line.reverse]
  | b :: rest =>
      if b == 10 then (b :: line).reverse :: byteLines [] rest else byteLines (b :: line) rest

def decode? (bytes : List UInt8) : Option (List Char) :=
  (String.fromUTF8? ⟨bytes.toArray⟩).map String.toList

/-- Looks in bytes; a line that is no text ends the search. -/
def findInBytes (bytes : List UInt8) : Option Overrides :=
  let lines := (byteLines [] bytes).map decode?
  findIn ((lines.takeWhile Option.isSome).filterMap id)

end FileDirective

end CSharpTidy
