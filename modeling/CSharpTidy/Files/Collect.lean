import CSharpTidy.Files.FileSystem
import CSharpTidy.Files.Glob
import CSharpTidy.Settings.Basic

/- The files that inputs stand for. A file stands for itself, a directory for the files below it
   with a wanted extension. Excluded directories are not entered. -/
namespace CSharpTidy

def maxDepth : Nat := 256

structure Selection where
  patterns : List Glob
  extensions : List String

def Settings.selection (s : Settings) : Selection :=
  ⟨s.exclude.filterMap Glob.parse?, s.extensions⟩

namespace Selection

def excludes (s : Selection) (names : List String) : Bool :=
  Path.isExcluded s.patterns ⟨"/".intercalate names⟩

/-- The wanted files at and below a location, depth first and in the order of names. `names` leads
there from the input, and `path` is how the place is written. -/
def walk (s : Selection) (fs : FileSystem) (depth : Nat) (l : Location) (names : List String)
    (path : Path) : List Path :=
  if s.excludes names then []
  else
    match fs.kindAt? l with
    | none => []
    | some .file => if path.hasExtension s.extensions then [path] else []
    | some .directory =>
        match depth with
        | 0 => []
        | depth + 1 =>
            (fs.childrenAt l).flatMap fun name =>
              walk s fs depth (l ++ [name]) (names ++ [name]) (path.join name)

/-- A file that is given by name is taken whatever its extension. -/
def collectInput (s : Selection) (fs : FileSystem) (input : Path) : List Path :=
  match fs.locate input with
  | .error _ => []
  | .ok l =>
      match fs.kindAt? l with
      | none => []
      | some .file =>
          let name := match input.fileName? with
            | some name => ⟨String.ofList name⟩
            | none => input
          if Path.isExcluded s.patterns name then [] else [input]
      | some .directory => s.walk fs maxDepth l [] input

def collect (s : Selection) (fs : FileSystem) (inputs : List Path) : List Path :=
  inputs.flatMap (s.collectInput fs)

end Selection

end CSharpTidy
