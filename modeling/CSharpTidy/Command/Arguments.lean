import CSharpTidy.Files.Path
import CSharpTidy.Settings.Basic

/- Command-line arguments. The value of an option may be attached to it or be the next argument;
   an option that waits for its value is settled only when something else comes. -/
namespace CSharpTidy

structure Arguments where
  inputs : List Path := []
  simulate : Bool := false
  check : Bool := false
  verbose : Bool := false
  config : Option Path := none
  exclude : List String := []
  extensions : List String := []
  jobs : Option Nat := none
  standardPrefixes : List String := []
  defines : List String := []
  lineEnding : Option LineEnding := none
  silent : Bool := false
  debug : Bool := false
  deriving DecidableEq, Repr

inductive UsageError where
  | unknownArgument
  | invalidValue
  | invalidNumber
  | conflict
  | unneededValue
  deriving DecidableEq, Repr

def UsageError.message : UsageError → String
  | .unknownArgument => "unexpected argument"
  | .invalidValue => "missing or invalid value for an argument"
  | .invalidNumber => "invalid number"
  | .conflict => "arguments cannot be used together"
  | .unneededValue => "unexpected value for an argument"

inductive Stop where
  | usage (error : UsageError)
  | help
  | version
  deriving DecidableEq, Repr

inductive Flag where
  | simulate | check | verbose | silent | debug
  deriving DecidableEq, Repr

inductive ValueOption where
  | config | exclude | extension | jobs | standardPrefix | define | lineEnding
  deriving DecidableEq, Repr

inductive Switch where
  | flag (f : Flag)
  | valued (o : ValueOption)
  | help
  | version
  deriving DecidableEq, Repr

def Switch.ofLong? : String → Option Switch
  | "simulate" => some (.flag .simulate)
  | "check" => some (.flag .check)
  | "verbose" => some (.flag .verbose)
  | "silent" => some (.flag .silent)
  | "debug" => some (.flag .debug)
  | "config" => some (.valued .config)
  | "exclude" => some (.valued .exclude)
  | "extension" => some (.valued .extension)
  | "jobs" => some (.valued .jobs)
  | "standard-prefix" => some (.valued .standardPrefix)
  | "define" => some (.valued .define)
  | "line-ending" => some (.valued .lineEnding)
  | "help" => some .help
  | "version" => some .version
  | _ => none

def Switch.ofShort? : Char → Option Switch
  | 's' => some (.flag .simulate)
  | 'v' => some (.flag .verbose)
  | 'S' => some (.flag .silent)
  | 'D' => some (.flag .debug)
  | 'c' => some (.valued .config)
  | 'e' => some (.valued .exclude)
  | 'x' => some (.valued .extension)
  | 'j' => some (.valued .jobs)
  | 'h' => some .help
  | 'V' => some .version
  | _ => none

/-- A count of 64 bits, in front of which a plus may stand. -/
def parseCount? (text : String) : Option Nat :=
  let digits := match text.toList with
    | '+' :: rest => rest
    | s => s
  if digits.isEmpty || !digits.all Char.isDigit then none
  else
    let n := digits.foldl (fun n c => n * 10 + (c.toNat - '0'.toNat)) 0
    if n < Nat.pow 2 64 then some n else none

namespace Arguments

/-- Only standard input is read without inputs, or with a dash as the only one. -/
def readsStandardInput (a : Arguments) : Bool :=
  a.inputs.isEmpty || a.inputs == [⟨"-"⟩]

def overrides (a : Arguments) : PartialSettings :=
  let given (values : List String) : Option (List String) :=
    if values.isEmpty then none else some values
  { standardPrefixes := given a.standardPrefixes
    lineEnding := a.lineEnding
    definedSymbols := given a.defines
    exclude := given a.exclude
    extensions := given a.extensions }

def has (a : Arguments) : Flag → Bool
  | .simulate => a.simulate
  | .check => a.check
  | .verbose => a.verbose
  | .silent => a.silent
  | .debug => a.debug

/-- A flag is given once. -/
def raise (a : Arguments) (f : Flag) : Except UsageError Arguments :=
  if a.has f then .error .conflict
  else
    .ok (match f with
      | .simulate => { a with simulate := true }
      | .check => { a with check := true }
      | .verbose => { a with verbose := true }
      | .silent => { a with silent := true }
      | .debug => { a with debug := true })

/-- Sets an option. Those that hold one value are given once. -/
def store (a : Arguments) (o : ValueOption) (value : String) : Except UsageError Arguments :=
  match o with
  | .exclude => .ok { a with exclude := a.exclude ++ [value] }
  | .extension => .ok { a with extensions := a.extensions ++ [value] }
  | .standardPrefix => .ok { a with standardPrefixes := a.standardPrefixes ++ [value] }
  | .define => .ok { a with defines := a.defines ++ [value] }
  | .config =>
      if a.config.isSome then .error .conflict
      else if value.isEmpty then .error .invalidValue
      else .ok { a with config := some ⟨value⟩ }
  | .jobs =>
      if a.jobs.isSome then .error .conflict
      else
        match parseCount? value with
        | none => .error .invalidNumber
        | some n => .ok { a with jobs := some n }
  | .lineEnding =>
      if a.lineEnding.isSome then .error .conflict
      else
        match LineEnding.ofName? value with
        | none => .error .invalidValue
        | some ending => .ok { a with lineEnding := some ending }

def addInputs (a : Arguments) (values : List String) : Except UsageError Arguments :=
  if values.any String.isEmpty then .error .invalidValue
  else .ok { a with inputs := a.inputs ++ values.map Path.mk }

end Arguments

/-- What is read but not yet settled: an option with the value that came for it, or inputs. -/
inductive Pending where
  | nothing
  | option (o : ValueOption) (value : Option String)
  | inputs (values : List String)
  deriving DecidableEq, Repr

structure ArgumentScan where
  arguments : Arguments := {}
  pending : Pending := .nothing
  deriving DecidableEq, Repr

namespace ArgumentScan

def settled (s : ArgumentScan) : Except UsageError Arguments :=
  match s.pending with
  | .nothing => .ok s.arguments
  | .option _ none => .error .invalidValue
  | .option o (some value) => s.arguments.store o value
  | .inputs values => s.arguments.addInputs values

def settleThen (s : ArgumentScan) (next : Arguments → Except UsageError ArgumentScan) :
    Except Stop ArgumentScan :=
  match s.settled with
  | .error e => .error (.usage e)
  | .ok a =>
      match next a with
      | .error e => .error (.usage e)
      | .ok s => .ok s

def settleStop (s : ArgumentScan) (stop : Stop) : Except Stop ArgumentScan :=
  match s.settled with
  | .error e => .error (.usage e)
  | .ok _ => .error stop

def raise (s : ArgumentScan) (f : Flag) : Except Stop ArgumentScan :=
  s.settleThen fun a => (a.raise f).map (⟨·, .nothing⟩)

def give (s : ArgumentScan) (o : ValueOption) : Option String → Except Stop ArgumentScan
  | none => s.settleThen fun a => .ok ⟨a, .option o none⟩
  | some value => s.settleThen fun a => (a.store o value).map (⟨·, .nothing⟩)

def long (s : ArgumentScan) (name : String) (value : Option String) : Except Stop ArgumentScan :=
  match Switch.ofLong? name with
  | none => .error (.usage .unknownArgument)
  | some (.valued o) => s.give o value
  | some switch =>
      if value.isSome then .error (.usage .unneededValue)
      else
        match switch with
        | .flag f => s.raise f
        | .version => s.settleStop .version
        | _ => s.settleStop .help

/-- A group of short switches. The rest behind an option is its value. -/
def short (s : ArgumentScan) : List Char → Except Stop ArgumentScan
  | [] => .ok s
  | c :: rest =>
      match Switch.ofShort? c with
      | none => .error (.usage .unknownArgument)
      | some .help => s.settleStop .help
      | some .version => s.settleStop .version
      | some (.flag f) =>
          match s.raise f with
          | .error stop => .error stop
          | .ok s => s.short rest
      | some (.valued o) =>
          s.give o (match rest with
            | [] => none
            | '=' :: value => some (String.ofList value)
            | value => some (String.ofList value))

def input (s : ArgumentScan) (value : String) : Except Stop ArgumentScan :=
  match s.pending with
  | .inputs values => .ok { s with pending := .inputs (values ++ [value]) }
  | _ => s.settleThen fun a => .ok ⟨a, .inputs [value]⟩

def plain (s : ArgumentScan) (value : String) : Except Stop ArgumentScan :=
  match s.pending with
  | .option o none => .ok { s with pending := .option o (some value) }
  | _ => s.input value

def argument (s : ArgumentScan) (text : String) : Except Stop ArgumentScan :=
  match text.toList with
  | '-' :: '-' :: rest =>
      s.long (String.ofList (rest.takeWhile (· != '=')))
        (match rest.dropWhile (· != '=') with
          | [] => none
          | _ :: value => some (String.ofList value))
  | '-' :: c :: rest => s.short (c :: rest)
  | _ => s.plain text

/-- Two dashes end the switches. -/
def run (s : ArgumentScan) : List String → Except Stop ArgumentScan
  | [] => .ok s
  | "--" :: rest => rest.foldlM input s
  | text :: rest =>
      match s.argument text with
      | .error stop => .error stop
      | .ok s => s.run rest

end ArgumentScan

/-- Reads the arguments. A check and a simulation exclude each other. -/
def Arguments.parse (arguments : List String) : Except Stop Arguments :=
  match ArgumentScan.run {} arguments with
  | .error stop => .error stop
  | .ok s =>
      match s.settled with
      | .error e => .error (.usage e)
      | .ok a => if a.check && a.simulate then .error (.usage .conflict) else .ok a

end CSharpTidy
