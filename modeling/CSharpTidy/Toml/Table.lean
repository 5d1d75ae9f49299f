/- TOML tables. How a table came to be decides what may still be added to it: one that a header
   opened or that stands in braces is closed to dotted keys, and dotted keys and headers do not
   mix in one table. -/
namespace CSharpTidy.Toml

inductive Origin where
  | braces | dotted | implied | header
  deriving DecidableEq, Repr

/-- Numbers, booleans and dates are kept as `scalar` alone. -/
inductive Value where
  | text (s : String)
  | scalar
  | array (items : List Value)
  | table (origin : Origin) (entries : List (String × Value))
  | tables (items : List (List (String × Value)))
  deriving Repr

abbrev Entries := List (String × Value)

namespace Entries

def get? (entries : Entries) (key : String) : Option Value :=
  (entries.find? fun e => e.1 == key).map Prod.snd

def set (entries : Entries) (key : String) (value : Value) : Entries :=
  if (get? entries key).isSome then
    entries.map fun e => if e.1 == key then (key, value) else e
  else entries ++ [(key, value)]

def add (entries : Entries) (key : String) (value : Value) : Option Entries :=
  if (get? entries key).isSome then none else some (entries ++ [(key, value)])

/-- Changes the table at the end of a path. Missing tables on the way are made, as `dotted` or
`implied`, and of an array of tables the last one is taken. -/
def descend (dotted : Bool) (change : Origin → Entries → Option Entries) :
    List String → Origin → Entries → Option Entries
  | [], origin, entries => change origin entries
  | key :: path, _, entries =>
      match get? entries key with
      | none =>
          let made : Origin := if dotted then .dotted else .implied
          (descend dotted change path made []).map fun inner =>
            entries ++ [(key, .table made inner)]
      | some (.table origin inner) =>
          if origin == .braces || (dotted && origin == .header) then none
          else
            (descend dotted change path origin inner).map fun inner =>
              set entries key (.table origin inner)
      | some (.tables items) =>
          match items.getLast? with
          | none => none
          | some last =>
              (descend dotted change path .header last).map fun inner =>
                set entries key (.tables (items.dropLast ++ [inner]))
      | some _ => none

def insert (path : List String) (key : String) (value : Value) (entries : Entries) :
    Option Entries :=
  descend true (fun origin inner =>
    if (origin == .dotted) == path.isEmpty then none else add inner key value)
    path .header entries

/-- Opens the table of a header, which only headers below it may have made before. -/
def openTable (path : List String) (key : String) (entries : Entries) : Option Entries :=
  descend false (fun _ inner =>
    match get? inner key with
    | none => some (inner ++ [(key, .table .header [])])
    | some (.table .implied own) => some (set inner key (.table .header own))
    | some _ => none)
    path .header entries

def openArrayTable (path : List String) (key : String) (entries : Entries) : Option Entries :=
  descend false (fun _ inner =>
    match get? inner key with
    | none => some (inner ++ [(key, .tables [[]])])
    | some (.tables items) => some (set inner key (.tables (items ++ [[]])))
    | some _ => none)
    path .header entries

end Entries

end CSharpTidy.Toml
