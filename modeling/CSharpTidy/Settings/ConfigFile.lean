import CSharpTidy.Files.FileSystem
import CSharpTidy.Settings.Basic
import CSharpTidy.Toml.Document

/- Configuration files. Keys that name no setting are allowed, a setting of another type than it
   has is not. -/
namespace CSharpTidy

open Toml (Entries Value)

namespace PartialSettings

def textList? : Value → Option (List String)
  | .array items => items.mapM fun
      | .text s => some s
      | _ => none
  | _ => none

/-- A table that stands for the name of its only key has nothing in it. -/
def isUnit : Value → Bool
  | .array items => items.isEmpty
  | .table _ entries => entries.isEmpty
  | _ => false

def lineEnding? : Value → Option LineEnding
  | .text s => LineEnding.ofName? s
  | .table _ [(name, value)] => if isUnit value then LineEnding.ofName? name else none
  | _ => none

def field? (decode : Value → Option α) (entries : Entries) (key : String) : Option (Option α) :=
  match entries.get? key with
  | none => some none
  | some value => (decode value).map some

def ofEntries? (entries : Entries) : Option PartialSettings := do
  let standardPrefixes ← field? textList? entries "standard_prefixes"
  let lineEnding ← field? lineEnding? entries "line_ending"
  let definedSymbols ← field? textList? entries "defined_symbols"
  let exclude ← field? textList? entries "exclude"
  let extensions ← field? textList? entries "extensions"
  return { standardPrefixes, lineEnding, definedSymbols, exclude, extensions }

def parse? (text : List Char) : Option PartialSettings :=
  (Toml.parse? text).bind ofEntries?

end PartialSettings

inductive ConfigFault where
  | unreadable (fault : FileFault)
  | malformed
  deriving DecidableEq, Repr

def ConfigFault.message : ConfigFault → String
  | .unreadable fault => fault.message
  | .malformed => "TOML parse error"

def PartialSettings.load (fs : FileSystem) (p : Path) : Except ConfigFault PartialSettings :=
  match fs.readText p with
  | .error fault => .error (.unreadable fault)
  | .ok text =>
      match parse? text with
      | none => .error .malformed
      | some partialSettings => .ok partialSettings

def Settings.load (fs : FileSystem) (p : Path) : Except ConfigFault Settings :=
  (PartialSettings.load fs p).map (Settings.apply {})

end CSharpTidy
