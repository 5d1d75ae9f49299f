import CSharpTidy.Command.Program

/- The command line. It takes what the command may look at into a file system value, runs the
   command on it, then prints and writes what came out. -/
namespace CSharpTidy.Command

def absolute (l : Location) : String :=
  "/" ++ "/".intercalate l

def lexicalLocation (workingDirectory : Location) (p : Path) : Location :=
  p.components.foldl (fun l component =>
    match component with
    | .root => []
    | .current => l
    | .parent => l.dropLast
    | .name name => l ++ [String.ofList name])
    workingDirectory

def addFile (fs : FileSystem) (l : Location) : IO FileSystem := do
  if l.getLast? == some configFileName then
    return fs.writeAt l (← IO.FS.readBinFile (absolute l))
  else
    return fs.writeAt l ByteArray.empty

def addTree (fs : FileSystem) : Nat → Location → IO FileSystem
  | 0, _ => return fs
  | depth + 1, l => do
      let path := (← IO.currentDir) / absolute l
      if ← path.isDir then
        let names := (← path.readDir).toList.map (·.fileName)
        names.foldlM (fun fs name => addTree fs depth (l ++ [name])) (fs.addDirectory l)
      else if ← path.pathExists then addFile fs l
      else return fs

def addBytes (fs : FileSystem) (l : Location) : IO FileSystem := do
  let path := (← IO.currentDir) / absolute l
  if (← path.pathExists) && !(← path.isDir) then
    return fs.writeAt l (← IO.FS.readBinFile (absolute l))
  else
    return fs

def addConfigFiles (fs : FileSystem) (l : Location) : IO FileSystem :=
  (List.range (l.length + 1)).foldlM (fun fs n => addBytes fs (l.take n ++ [configFileName])) fs

/-- The environment with all that settings and inputs lead to. Only configuration files have
their bytes yet. -/
def survey (a : Arguments) : IO Environment := do
  let workingDirectory :=
    ((⟨(← IO.currentDir).toString⟩ : Path).components.filterMap Component.name?).map String.ofList
  let homeVariable ← IO.getEnv "HOME"
  let profileVariable ← IO.getEnv "USERPROFILE"
  let place := lexicalLocation workingDirectory
  let fs : FileSystem := { workingDirectory, files := [], directories := [] }
  let env : Environment := { fs, homeVariable, profileVariable }
  let fs ← addConfigFiles fs workingDirectory
  let fs ← a.inputs.foldlM (fun fs p => addConfigFiles fs (place p)) fs
  let fs ← match env.home? with
    | some home => addBytes fs (place home ++ [configFileName])
    | none => pure fs
  let fs ← match a.config with
    | some file => addBytes fs (place file)
    | none => pure fs
  let fs ← a.inputs.foldlM (fun fs p => addTree fs (maxDepth + 1) (place p)) fs
  return { env with fs }

def filesToRead (env : Environment) (a : Arguments) : List Location :=
  match files env a with
  | .ok (_, paths) => paths.map (lexicalLocation env.fs.workingDirectory)
  | .error _ => []

partial def readAll (stream : IO.FS.Stream) (read : ByteArray) : IO ByteArray := do
  let piece ← stream.read 65536
  if piece.isEmpty then return read else readAll stream (read ++ piece)

def deliver (paths : List Location) (before : FileSystem) (r : Response) (start : Nat) :
    IO UInt32 := do
  for l in paths do
    match before.bytesAt? l, r.env.fs.bytesAt? l with
    | some old, some new => if old != new then IO.FS.writeBinFile (absolute l) new
    | _, _ => pure ()
  let output ← IO.getStdout
  output.write r.output
  output.flush
  let elapsed := Duration.ofMilliseconds ((← IO.monoMsNow) - start)
  for message in r.messages do
    IO.eprintln (message.text elapsed)
  return r.code.toUInt32

end CSharpTidy.Command

open CSharpTidy Command in
def main (arguments : List String) : IO UInt32 := do
  let start ← IO.monoMsNow
  let nowhere : Environment := { fs := { workingDirectory := [], files := [], directories := [] } }
  match Arguments.parse arguments with
  | .error _ => deliver [] nowhere.fs (run nowhere arguments ByteArray.empty) start
  | .ok a =>
      let input ← IO.getStdin
      if a.inputs.isEmpty && (← input.isTty) then
        IO.println helpText
        return 0
      let env ← survey a
      let paths := if a.readsStandardInput then [] else filesToRead env a
      let fs ← paths.foldlM addBytes env.fs
      let bytes ← if a.readsStandardInput then readAll input ByteArray.empty
        else pure ByteArray.empty
      deliver paths fs (execute { env with fs } a bytes) start
