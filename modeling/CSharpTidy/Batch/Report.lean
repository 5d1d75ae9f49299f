import CSharpTidy.Batch.Duration
import CSharpTidy.Files.Path

/- What became of the files of a run. -/
namespace CSharpTidy

/-- A failure lists its causes, the outermost first. -/
inductive Outcome where
  | organized (changed : Bool)
  | ignored (reason : String)
  | failed (causes : List String)
  deriving DecidableEq, Repr

/-- The files of a run by outcome. Those in `changed` are also in `organized`. -/
structure Report where
  organized : List Path := []
  changed : List Path := []
  ignored : List (Path × String) := []
  failed : List (Path × List String) := []
  deriving DecidableEq, Repr

namespace Report

def record (r : Report) (p : Path) : Outcome → Report
  | .organized changed =>
      { r with
        organized := r.organized ++ [p]
        changed := if changed then r.changed ++ [p] else r.changed }
  | .ignored reason => { r with ignored := r.ignored ++ [(p, reason)] }
  | .failed causes => { r with failed := r.failed ++ [(p, causes)] }

/-- One line; files that were ignored or that failed are counted only if there are any. -/
def summary (r : Report) (elapsed : Duration) : String :=
  s!"Organized {r.organized.length} files in {elapsed.text}." ++
    (if r.ignored.isEmpty then "" else s!" {r.ignored.length} files ignored.") ++
    (if r.failed.isEmpty then "" else s!" {r.failed.length} files failed.")

def details (r : Report) : List String :=
  (r.organized.map fun p =>
    s!"organized : {p.text}" ++ if r.changed.any p.same then " (changed)" else "") ++
  (r.ignored.map fun (p, reason) => s!"ignored   : {p.text} ({reason})") ++
  r.failed.map fun (p, causes) => s!"failed    : {p.text}: " ++ ": ".intercalate causes

end Report

end CSharpTidy
