import CSharpTidy.Batch.Run
import CSharpTidy.Command.Arguments
import CSharpTidy.Files.Collect

/- The command: from its arguments, standard input and the environment to what it prints, the
   files it leaves and its exit code. -/
namespace CSharpTidy

inductive Message where
  | line (text : String)
  | failure (causes : List String)
  | summary (report : Report)
  deriving DecidableEq, Repr

/-- A failure is its outermost cause, with what led to it below. -/
def Message.failureText : List String → String
  | [] => "Error: "
  | [cause] => s!"Error: {cause}"
  | [cause, inner] => s!"Error: {cause}\n\nCaused by:\n    {inner}"
  | cause :: inner =>
      s!"Error: {cause}\n\nCaused by:" ++
        String.join (inner.zipIdx.map fun (text, i) => s!"\n    {i}: {text}")

def Message.text (elapsed : Duration) : Message → String
  | .line text => text
  | .failure causes => failureText causes
  | .summary report => report.summary elapsed

structure Response where
  env : Environment
  code : Nat
  output : ByteArray := ByteArray.empty
  messages : List Message := []

namespace Command

def helpText : String :=
  String.join ([
    "Sorts C# declarations into a canonical order and normalizes blank lines",
    "",
    "Usage: csorganize [OPTIONS] [PATH]...",
    "",
    "Arguments:",
    "  [PATH]...  Files or directories to organize; reads stdin when omitted or `-`",
    "",
    "Options:",
    "  -s, --simulate                  Display organized file content without saving files",
    "      --check                     Write nothing; exit with status 1 if any file would change",
    "  -v, --verbose                   Display outcome for each file",
    "  -c, --config <FILE>             Use this config file instead of discovering csorganize.toml",
    "  -e, --exclude <PATTERN>         Glob pattern for files or directories to skip (repeatable)",
    "  -x, --extension <EXT>           File extension to organize while walking directories (repeatable) [default: cs]",
    "  -j, --jobs <NUM>                Number of parallel jobs (0=auto, 1=sequential)",
    "      --standard-prefix <PREFIX>  Namespace root sorted ahead of other usings (repeatable) [default: System]",
    "      --define <SYMBOL>           Preprocessor symbol treated as defined (repeatable)",
    "      --line-ending <STYLE>       Line ending for inserted line breaks [default: auto] [possible values: auto, lf, crlf]",
    "  -S, --silent                    Don't print the summary",
    "  -D, --debug                     Print debug diagnostics to stderr",
    "  -h, --help                      Print help",
    "  -V, --version                   Print version"].map fun line => line ++ "\n")

def versionText : String := "csorganize 0.1.0\n"

def settings (env : Environment) (a : Arguments) (p : Path) : Except (List String) Settings :=
  let base : Except (List String) Settings := match a.config with
    | none => .ok (env.discoverSettings p)
    | some file => (Settings.load env.fs file).mapError fun fault =>
        [s!"failed to load config {file.text}", fault.message]
  match base with
  | .error causes => .error causes
  | .ok base =>
      let settings := base.apply a.overrides
      match settings.fault? with
      | some fault => .error [invalidSettings fault]
      | none => .ok settings

def failed (env : Environment) (causes : List String) : Response :=
  { env, code := 1, messages := [.failure causes] }

def filter (env : Environment) (a : Arguments) (input : ByteArray) : Response :=
  match settings env a env.fs.workingPath with
  | .error causes => failed env causes
  | .ok settings =>
      if maxFileSize < input.size then
        failed env [s!"stdin input too large ({input.size / megabyte} MB exceeds limit of {maxFileSize / megabyte} MB)"]
      else
        match organizeBytes settings input with
        | .error e => failed env (e.causes "stdin")
        | .ok (changed, output) =>
            if a.check then { env, code := if changed then 1 else 0 }
            else { env, code := 0, output }

def batchOptions (a : Arguments) (settings : Settings) : BatchOptions where
  settings := if a.config.isSome then .fixed settings else .discovered a.overrides
  mode := if a.simulate then .simulate else if a.check then .check else .write

/-- What a finished run says. The summary is the first line, and silence keeps only the lines
that were asked for. -/
def messages (a : Arguments) (report : Report) : List Message :=
  (if a.silent then [] else [.summary report]) ++
  (if a.verbose then report.details.map .line else []) ++
  (if a.check && !a.silent && report.failed.isEmpty then
    report.changed.map fun p => .line s!"Would reorganize: {p.text}"
  else [])

def exitCode (a : Arguments) (report : Report) : Nat :=
  if !report.failed.isEmpty then 2
  else if a.check && !report.changed.isEmpty then 1
  else 0

/-- The files to organize; the configuration seen from the first input selects them. -/
def files (env : Environment) (a : Arguments) : Except (List String) (Settings × List Path) :=
  (settings env a (a.inputs.headD ⟨""⟩)).map fun settings =>
    (settings, settings.selection.collect env.fs a.inputs)

def organizeFiles (env : Environment) (a : Arguments) : Response :=
  match files env a with
  | .error causes => failed env causes
  | .ok (_, []) =>
      { env, code := 0
        messages := if a.silent then [] else [.line "No C# files found to organize."] }
  | .ok (settings, paths) =>
      let batch := Batch.run (batchOptions a settings) env paths
      { env := batch.env
        code := exitCode a batch.report
        output := encodeText batch.printed
        messages := messages a batch.report }

def execute (env : Environment) (a : Arguments) (input : ByteArray) : Response :=
  if a.readsStandardInput then filter env a input else organizeFiles env a

def run (env : Environment) (arguments : List String) (input : ByteArray) : Response :=
  match Arguments.parse arguments with
  | .error .help => { env, code := 0, output := helpText.toUTF8 }
  | .error .version => { env, code := 0, output := versionText.toUTF8 }
  | .error (.usage e) => { env, code := 2, messages := [.line s!"error: {e.message}"] }
  | .ok a => execute env a input

end Command

end CSharpTidy
