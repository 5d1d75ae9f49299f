import CSharpTidy.Files.Fault
import CSharpTidy.Files.Path

/- A file system as a value: the bytes of its files by location, and its directories. A location
   is the list of names from the root. There are no links. -/
namespace CSharpTidy

abbrev Location := List String

structure FileSystem where
  workingDirectory : Location
  files : List (Location × ByteArray)
  directories : List Location

inductive EntryKind where
  | file | directory
  deriving DecidableEq, Repr

namespace FileSystem

def bytesAt? (fs : FileSystem) (l : Location) : Option ByteArray :=
  (fs.files.find? fun f => f.1 == l).map Prod.snd

/-- Everything above the working directory, a file or a directory is a directory. -/
def isDirectoryAt (fs : FileSystem) (l : Location) : Bool :=
  l.isPrefixOf fs.workingDirectory || fs.directories.any l.isPrefixOf ||
    fs.files.any fun f => l.isPrefixOf f.1 && l != f.1

def kindAt? (fs : FileSystem) (l : Location) : Option EntryKind :=
  if (fs.bytesAt? l).isSome then some .file
  else if fs.isDirectoryAt l then some .directory
  else none

def writeAt (fs : FileSystem) (l : Location) (bytes : ByteArray) : FileSystem :=
  if (fs.bytesAt? l).isSome then
    { fs with files := fs.files.map fun f => if f.1 == l then (l, bytes) else f }
  else { fs with files := fs.files ++ [(l, bytes)] }

def addDirectory (fs : FileSystem) (l : Location) : FileSystem :=
  { fs with directories := fs.directories ++ [l] }

def childTowards? (l target : Location) : Option String :=
  if l.isPrefixOf target then target[l.length]? else none

/-- The names in a directory, in order and each once. -/
def childrenAt (fs : FileSystem) (l : Location) : List String :=
  let targets := fs.files.map Prod.fst ++ fs.directories
  ((targets.filterMap (childTowards? l)).eraseDups).mergeSort fun a b => (compare a b).isLE

def follow (fs : FileSystem) (l : Location) (segment : List Char) : Except FileFault Location :=
  match fs.kindAt? l with
  | none => .error .notFound
  | some .file => .error .notDirectory
  | some .directory =>
      match Component.ofSegment? segment with
      | some (.name name) => .ok (l ++ [String.ofList name])
      | some .parent => .ok l.dropLast
      | _ => .ok l

/-- Where a path leads. The empty path leads nowhere. -/
def locate (fs : FileSystem) (p : Path) : Except FileFault Location :=
  if p.text.isEmpty then .error .notFound
  else p.segments.foldlM fs.follow (if p.isAbsolute then [] else fs.workingDirectory)

def kind? (fs : FileSystem) (p : Path) : Option EntryKind :=
  match fs.locate p with
  | .ok l => fs.kindAt? l
  | .error _ => none

def isFile (fs : FileSystem) (p : Path) : Bool :=
  fs.kind? p == some .file

def isDirectory (fs : FileSystem) (p : Path) : Bool :=
  fs.kind? p == some .directory

def read (fs : FileSystem) (p : Path) : Except FileFault ByteArray :=
  match fs.locate p with
  | .error fault => .error fault
  | .ok l =>
      match fs.bytesAt? l with
      | some bytes => .ok bytes
      | none => if fs.isDirectoryAt l then .error .isDirectory else .error .notFound

def readText (fs : FileSystem) (p : Path) : Except FileFault (List Char) :=
  match fs.read p with
  | .error fault => .error fault
  | .ok bytes => decodeText bytes

def directorySize : Nat := 4096

def size (fs : FileSystem) (p : Path) : Except FileFault Nat :=
  match fs.read p with
  | .ok bytes => .ok bytes.size
  | .error .isDirectory => .ok directorySize
  | .error fault => .error fault

/-- Replaces the bytes of a file; a path that leads nowhere changes nothing. -/
def write (fs : FileSystem) (p : Path) (bytes : ByteArray) : FileSystem :=
  match fs.locate p with
  | .ok l => fs.writeAt l bytes
  | .error _ => fs

def workingPath (fs : FileSystem) : Path :=
  ⟨"/" ++ "/".intercalate fs.workingDirectory⟩

end FileSystem

end CSharpTidy
