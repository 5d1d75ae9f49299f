import CSharpTidy.Conditional.Condition

/- State of conditional compilation: the defined symbols and the chain of open conditionals,
   innermost first. -/
namespace CSharpTidy

inductive DirectiveError where
  | condition (cause : ConditionError)
  | elifWithoutIf
  | elifAfterElse
  | elseWithoutIf
  | duplicateElse
  | endIfWithoutIf
  | invalidSymbol (name : String)
  | ifWithoutEndIf
  deriving DecidableEq, Repr

def DirectiveError.message : DirectiveError → String
  | .condition cause => cause.message
  | .elifWithoutIf => "#elif without matching #if"
  | .elifAfterElse => "#elif after #else"
  | .elseWithoutIf => "#else without matching #if"
  | .duplicateElse => "duplicate #else"
  | .endIfWithoutIf => "#endif without matching #if"
  | .invalidSymbol name => s!"invalid symbol `{name}`"
  | .ifWithoutEndIf => "#if without matching #endif"

/-- One open conditional. `taken` records that some arm of it has been selected. -/
structure Branch where
  parentActive : Bool
  taken : Bool
  active : Bool
  seenElse : Bool
  deriving DecidableEq, Repr

structure Conditional where
  symbols : List String
  branches : List Branch
  deriving DecidableEq, Repr

namespace Conditional

def ofSymbols (symbols : List String) : Conditional :=
  ⟨symbols, []⟩

def isActive (c : Conditional) : Bool :=
  match c.branches with
  | [] => true
  | branch :: _ => branch.active

def depth (c : Conditional) : Nat :=
  c.branches.length

def isDefined (c : Conditional) (symbol : String) : Bool :=
  c.symbols.contains symbol

/-- A directive works on the state in place: what it has changed when it fails stays changed. -/
abbrev Update := EStateM DirectiveError Conditional

def evaluate (expr : List Char) : Update Bool := fun c =>
  match Condition.evaluate c.symbols expr with
  | .ok value => .ok value c
  | .error cause => .error (.condition cause) c

def setBranches (branches : List Branch) : Update Unit :=
  modify fun c => { c with branches := branches }

/-- The condition of a nested conditional counts only in live code, and is read only there. -/
def openIf (expr : List Char) : Update Unit := do
  let c ← get
  let value ← if c.isActive then evaluate expr else pure false
  setBranches (⟨c.isActive, value, value, false⟩ :: c.branches)

/-- The condition of a later arm is read only while no arm has been selected. -/
def nextArm (expr : List Char) : Update Unit := do
  match (← get).branches with
  | [] => throw .elifWithoutIf
  | branch :: outer =>
      if branch.seenElse then throw .elifAfterElse
      else if branch.parentActive && !branch.taken then
        let value ← evaluate expr
        setBranches ({ branch with active := value, taken := value } :: outer)
      else setBranches ({ branch with active := false } :: outer)

def lastArm : Update Unit := do
  match (← get).branches with
  | [] => throw .elseWithoutIf
  | branch :: outer =>
      if branch.seenElse then throw .duplicateElse
      else
        let live := branch.parentActive && !branch.taken
        setBranches (⟨branch.parentActive, true, live, true⟩ :: outer)

def closeIf : Update Unit := do
  match (← get).branches with
  | [] => throw .endIfWithoutIf
  | _ :: outer => setBranches outer

def define (c : Conditional) (symbol : String) : Conditional :=
  { c with symbols := c.symbols.insert symbol }

def undefine (c : Conditional) (symbol : String) : Conditional :=
  { c with symbols := c.symbols.filter (· != symbol) }

/-- In dead code a definition is not even read. -/
def changeSymbol (name : List Char) (change : Conditional → String → Conditional) :
    Update Unit := do
  if !(← get).isActive then return
  else if isSymbol name then modify fun c => change c (String.ofList name)
  else throw (.invalidSymbol (String.ofList name))

def update (kind : DirectiveKind) (line : List Char) : Update Unit :=
  let argument := DirectiveLine.argument line
  match kind with
  | .ifTest => openIf argument
  | .elifTest => nextArm argument
  | .elseArm => lastArm
  | .endIf => closeIf
  | .define => changeSymbol argument define
  | .undef => changeSymbol argument undefine
  | _ => pure ()

def apply (c : Conditional) (kind : DirectiveKind) (line : List Char) :
    Except DirectiveError Conditional :=
  match update kind line c with
  | .ok _ after => .ok after
  | .error cause _ => .error cause

end Conditional

end CSharpTidy
