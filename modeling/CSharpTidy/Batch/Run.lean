import CSharpTidy.Batch.Report
import CSharpTidy.Organize.Source
import CSharpTidy.Settings.Discovery

/- A run over many files. The files are taken one after the other, each seeing what was written
   before it. -/
namespace CSharpTidy

def megabyte : Nat := 1024 * 1024

def maxFileSize : Nat := 100 * megabyte

/-- Where the settings for a file come from: one and the same for all, or the configuration
files above each with `overrides` on top. -/
inductive SettingsSource where
  | fixed (settings : Settings)
  | discovered (overrides : PartialSettings)

inductive Mode where
  | write | check | simulate
  deriving DecidableEq, Repr

structure BatchOptions where
  settings : SettingsSource
  mode : Mode := .write
  sizeLimit : Nat := maxFileSize

def invalidSettings (fault : SettingsFault) : String :=
  s!"invalid configuration: {fault.message}"

def Environment.settingsFor (env : Environment) (p : Path) :
    SettingsSource → Except SettingsFault Settings
  | .fixed settings => .ok settings
  | .discovered overrides =>
      let settings := (env.discoverSettings p).apply overrides
      match settings.fault? with
      | some fault => .error fault
      | none => .ok settings

/-- The source of a file and what becomes of it, or the outcome that stands without reading it. -/
def FileSystem.organizeFile (fs : FileSystem) (sizeLimit : Nat) (settings : Settings) (p : Path) :
    Except Outcome (List Char × List Char) :=
  match fs.size p with
  | .error fault => .error (.failed [fault.message])
  | .ok size =>
      if sizeLimit < size then
        .error (.ignored s!"{size / megabyte} MB exceeds limit of {sizeLimit / megabyte} MB")
      else
        match fs.readText p with
        | .error fault => .error (.failed [s!"failed to read {p.text}", fault.message])
        | .ok source =>
            match organizeSource settings source with
            | .error e => .error (.failed [e.message])
            | .ok .ignored => .error (.ignored "csorganize directive")
            | .ok (.text result) => .ok (source, result)

structure Batch where
  env : Environment
  report : Report := {}
  printed : List Char := []

namespace Batch

def shown (p : Path) (text : List Char) : List Char :=
  s!"====================\n{p.text}:\n".toList ++ text

def settle (b : Batch) (mode : Mode) (p : Path) (source result : List Char) : Batch :=
  let changed := result != source
  let b := { b with report := b.report.record p (.organized changed) }
  match mode with
  | .simulate => { b with printed := b.printed ++ shown p result }
  | .check => b
  | .write =>
      if changed then { b with env.fs := b.env.fs.write p (encodeText result) } else b

def step (options : BatchOptions) (b : Batch) (p : Path) : Batch :=
  match b.env.settingsFor p options.settings with
  | .error fault => { b with report := b.report.record p (.failed [invalidSettings fault]) }
  | .ok settings =>
      match b.env.fs.organizeFile options.sizeLimit settings p with
      | .error outcome => { b with report := b.report.record p outcome }
      | .ok (source, result) => b.settle options.mode p source result

def run (options : BatchOptions) (env : Environment) (files : List Path) : Batch :=
  files.foldl (step options) { env }

end Batch

end CSharpTidy
