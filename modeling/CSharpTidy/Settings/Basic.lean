import CSharpTidy.Conditional.DirectiveLine
import CSharpTidy.Organize.Text

/- Settings, and partial settings that replace some of them. -/
namespace CSharpTidy

structure Settings where
  standardPrefixes : List String := ["System"]
  lineEnding : LineEnding := .auto
  definedSymbols : List String := []
  exclude : List String := ["bin", "obj", "*.g.cs", "*.Designer.cs"]
  extensions : List String := ["cs"]
  deriving DecidableEq, Repr

structure PartialSettings where
  standardPrefixes : Option (List String) := none
  lineEnding : Option LineEnding := none
  definedSymbols : Option (List String) := none
  exclude : Option (List String) := none
  extensions : Option (List String) := none
  deriving DecidableEq, Repr

def PartialSettings.isEmpty (p : PartialSettings) : Bool :=
  p == {}

inductive SettingsFault where
  | noPrefix
  | blankPrefix (text : String)
  | invalidSymbol (name : String)
  | noExtension
  deriving DecidableEq, Repr

def SettingsFault.message : SettingsFault → String
  | .noPrefix => "standard_prefixes must name at least one namespace"
  | .blankPrefix text => s!"standard prefix '{text}' is empty"
  | .invalidSymbol name => s!"'{name}' is not a valid preprocessor symbol"
  | .noExtension => "extensions must list at least one file extension"

namespace Settings

def fault? (s : Settings) : Option SettingsFault :=
  if s.standardPrefixes.isEmpty then some .noPrefix
  else
    match s.standardPrefixes.find? fun p => (Text.trim p.toList).isEmpty with
    | some p => some (.blankPrefix p)
    | none =>
        match s.definedSymbols.find? fun symbol => !isSymbol symbol.toList with
        | some symbol => some (.invalidSymbol symbol)
        | none => if s.extensions.isEmpty then some .noExtension else none

def options (s : Settings) : Options :=
  ⟨s.standardPrefixes, s.lineEnding, s.definedSymbols⟩

def apply (s : Settings) (p : PartialSettings) : Settings where
  standardPrefixes := p.standardPrefixes.getD s.standardPrefixes
  lineEnding := p.lineEnding.getD s.lineEnding
  definedSymbols := p.definedSymbols.getD s.definedSymbols
  exclude := p.exclude.getD s.exclude
  extensions := p.extensions.getD s.extensions

end Settings

end CSharpTidy
