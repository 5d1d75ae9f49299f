import CSharpTidy.Tree.Decl

/- The file header: a comment block in front of the first declaration, up to the last blank line
   behind a comment. Nothing is taken past a directive that pins declarations. -/
namespace CSharpTidy.Header

/-- Progress through a span. `lineStart` is the index at which the current line starts, and
`split` where the last blank line behind a comment did. -/
structure Progress where
  index : Nat := 0
  lineStart : Nat := 0
  lineBlank : Bool := true
  seenComment : Bool := false
  split : Option Nat := none

def scan (p : Progress) : Span → Option Nat
  | [] => p.split
  | t :: rest =>
      let next := p.index + 1
      if t.isEndOfLine then
        let split := if p.lineBlank && p.seenComment then some p.lineStart else p.split
        scan ⟨next, next, true, p.seenComment, split⟩ rest
      else if t.isWhitespace then scan { p with index := next } rest
      else if t.isGuardMarker then p.split
      else
        scan ⟨next, p.lineStart, false, p.seenComment || t.isComment, p.split⟩ rest

/-- How many trivia of the first declaration's leading span belong to the header, if any do. -/
def split? (span : Span) : Option Nat :=
  scan {} span

def detachFirst : List Decl → Span × List Decl
  | [] => ([], [])
  | d :: rest =>
      match split? d.leading with
      | none => ([], d :: rest)
      | some n => (d.leading.take n, { d with leading := d.leading.drop n } :: rest)

def detach (root : Block Decl) : Span × Block Decl :=
  if !root.imports.isEmpty then
    let detached := detachFirst root.imports
    (detached.1, { root with imports := detached.2 })
  else if !root.attributes.isEmpty then
    let detached := detachFirst root.attributes
    (detached.1, { root with attributes := detached.2 })
  else
    let detached := detachFirst root.members
    (detached.1, { root with members := detached.2 })

end CSharpTidy.Header
