import CSharpTidy.Text.Split

/- Paths as written, and their components. Two paths are the same when their components are:
   repeated slashes and inner dots do not count, a leading dot does. -/
namespace CSharpTidy

structure Path where
  text : String
  deriving DecidableEq, Repr

inductive Component where
  | root
  | current
  | parent
  | name (text : List Char)
  deriving DecidableEq, Repr

def Component.name? : Component → Option (List Char)
  | .name text => some text
  | _ => none

/-- An empty segment or a dot stands for no component. -/
def Component.ofSegment? (segment : List Char) : Option Component :=
  if segment == [] || segment == ['.'] then none
  else if segment == ['.', '.'] then some .parent
  else some (.name segment)

namespace Path

def segments (p : Path) : List (List Char) :=
  Text.splitAt '/' p.text.toList

def isAbsolute (p : Path) : Bool :=
  p.text.toList.head? == some '/'

def components (p : Path) : List Component :=
  let inner := p.segments.filterMap Component.ofSegment?
  if p.isAbsolute then .root :: inner
  else if p.segments.head? == some ['.'] then .current :: inner
  else inner

def same (p q : Path) : Bool :=
  p.components == q.components

def fileName? (p : Path) : Option (List Char) :=
  p.components.getLast?.bind Component.name?

/-- The part of a name behind its last dot, if something stands before that dot. -/
def extensionOf? (name : List Char) : Option (List Char) :=
  let ending := (name.reverse.takeWhile (· != '.')).reverse
  match (name.reverse.dropWhile (· != '.')).tail with
  | [] => none
  | _ :: _ => some ending

def extension? (p : Path) : Option (List Char) :=
  p.fileName?.bind extensionOf?

/-- Whether the extension is one of these, up to the case of ASCII letters. A wanted extension
may be written with a dot. -/
def hasExtension (extensions : List String) (p : Path) : Bool :=
  match p.extension? with
  | none => false
  | some ending =>
      extensions.any fun wanted =>
        let bare := match wanted.toList with
          | '.' :: rest => rest
          | other => other
        bare.map Char.toLower == ending.map Char.toLower

def join (p : Path) (name : String) : Path :=
  if p.text.isEmpty then ⟨name⟩
  else if p.text.toList.getLast? == some '/' then ⟨p.text ++ name⟩
  else ⟨p.text ++ "/" ++ name⟩

def ofSegments (segments : List (List Char)) : Path :=
  ⟨String.ofList (['/'].intercalate segments)⟩

/-- The paths that end with each component of `segments`; `before` holds the segments in front of
them. A dot at the very front is a component. -/
def cuts (before : List (List Char)) : List (List Char) → List Path
  | [] => []
  | segment :: rest =>
      let upTo := before ++ [segment]
      let ends := (Component.ofSegment? segment).isSome || (before.isEmpty && segment == ['.'])
      if ends then ofSegments upTo :: cuts upTo rest else cuts upTo rest

/-- The path and the directories above it, outermost first. Of a relative path the outermost is
the empty path. -/
def ancestors (p : Path) : List Path :=
  match cuts [] p.segments with
  | [] => [p]
  | ends => ⟨if p.isAbsolute then "/" else ""⟩ :: ends.dropLast ++ [p]

def parent? (p : Path) : Option Path :=
  p.ancestors.dropLast.getLast?

end Path

end CSharpTidy
