import CSharpTidy.Settings.ConfigFile

/- Finding the configuration files for a path: the one in the home directory, then those above
   the path from the outermost down, so that the nearest has the last word. -/
namespace CSharpTidy

def configFileName : String := "csorganize.toml"

structure Environment where
  fs : FileSystem
  homeVariable : Option String := none
  profileVariable : Option String := none

namespace Environment

def home? (env : Environment) : Option Path :=
  match env.homeVariable with
  | some home => some ⟨home⟩
  | none => env.profileVariable.map Path.mk

/-- Where the search for a path begins. A path that is not there is looked for from the working
directory. -/
def startDirectory? (env : Environment) (p : Path) : Option Path :=
  match env.fs.kind? p with
  | some .file => p.parent?
  | some .directory => some p
  | none => some env.fs.workingPath

def addFile (env : Environment) (listed : List Path) (p : Path) : List Path :=
  if env.fs.isFile p && !listed.any p.same then listed ++ [p] else listed

def configFiles (env : Environment) (p : Path) : List Path :=
  let above := match env.startDirectory? p with
    | some directory => directory.ancestors
    | none => []
  (env.home?.toList ++ above).foldl
    (fun listed directory => env.addFile listed (directory.join configFileName)) []

/-- Lays a configuration file over settings; one that cannot be used changes nothing. -/
def layer (env : Environment) (s : Settings) (p : Path) : Settings :=
  match PartialSettings.load env.fs p with
  | .ok partialSettings => s.apply partialSettings
  | .error _ => s

def discoverSettings (env : Environment) (p : Path) : Settings :=
  (env.configFiles p).foldl env.layer {}

end Environment

end CSharpTidy
