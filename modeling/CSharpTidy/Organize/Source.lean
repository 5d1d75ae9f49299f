import CSharpTidy.Files.Fault
import CSharpTidy.Settings.FileDirective

/- Organizing one file under settings, with regard to the directive in its text. -/
namespace CSharpTidy

inductive Organized where
  | ignored
  | text (result : List Char)
  deriving DecidableEq, Repr

def organizeSource (settings : Settings) (source : List Char) : Except ParseError Organized :=
  let organized (s : Settings) : Except ParseError Organized :=
    (organize s.options source).map .text
  match FileDirective.find source with
  | none => organized settings
  | some overrides =>
      if overrides.ignore then .ok .ignored else organized (overrides.applyTo settings)

inductive StreamError where
  | unreadable (fault : FileFault)
  | unparsable (error : ParseError)
  deriving DecidableEq, Repr

def StreamError.causes (name : String) : StreamError → List String
  | .unreadable fault => [s!"failed to read {name}", fault.message]
  | .unparsable error => [s!"failed to parse {name}", error.message]

/-- The organized bytes, and whether they differ. Bytes whose text asks to be left alone stay. -/
def organizeBytes (settings : Settings) (input : ByteArray) :
    Except StreamError (Bool × ByteArray) :=
  match decodeText input with
  | .error fault => .error (.unreadable fault)
  | .ok source =>
      match organizeSource settings source with
      | .error e => .error (.unparsable e)
      | .ok .ignored => .ok (false, input)
      | .ok (.text result) => .ok (result != source, encodeText result)

end CSharpTidy
