import CSharpTidy.Tree.Decl

/- The order of members: by category, and inside a category by what counts there. -/
namespace CSharpTidy

inductive Category where
  | namespaces | interfaces | fields | properties | constructors | methods | classes | others
  | enums
  deriving DecidableEq, Repr

namespace Category

def ofKind : DeclKind → Category
  | .container .namespaceBody => .namespaces
  | .container .interfaceBody => .interfaces
  | .container .classBody => .classes
  | .field => .fields
  | .property => .properties
  | .constructor => .constructors
  | .method => .methods
  | .enum => .enums
  | .imported _ | .other _ => .others

def index : Category → Nat
  | .namespaces => 0
  | .interfaces => 1
  | .fields => 2
  | .properties => 3
  | .constructors => 4
  | .methods => 5
  | .classes => 6
  | .others => 7
  | .enums => 8

def all : List Category :=
  [.namespaces, .interfaces, .fields, .properties, .constructors, .methods, .classes, .others,
    .enums]

end Category

namespace Decl

def category (d : Decl) : Category :=
  .ofKind d.kind

def compareVisibility (a b : Decl) : Ordering :=
  compare a.visibility.rank b.visibility.rank

def compareName (a b : Decl) : Ordering :=
  compare a.key.name b.key.name

def compareParams (a b : Decl) : Ordering :=
  compare a.key.params b.key.params

def compareTypeParams (a b : Decl) : Ordering :=
  compare a.key.typeParams b.key.typeParams

def compareMember (a b : Decl) : Ordering :=
  match a.category with
  | .fields | .properties => (compareVisibility a b).then (compareName a b)
  | .constructors => (compareVisibility a b).then (compareParams a b)
  | .methods =>
      (compareVisibility a b).then <| (compareName a b).then <|
        (compareTypeParams a b).then (compareParams a b)
  | .enums => compareVisibility a b
  | .namespaces | .interfaces | .classes | .others => .eq

/-- The members of each category, at the index of the category and in the order that they have. -/
def buckets (members : List Decl) : List (List Decl) :=
  members.foldr (fun d lists => lists.modify d.category.index (d :: ·))
    (Category.all.map fun _ => [])

/-- Only members of one category are compared, for `compareMember` is no order over several. -/
def sortByCategory (members : List Decl) : List Decl :=
  ((buckets members).map (·.mergeSort fun a b => (compareMember a b).isLE)).flatten

end Decl

end CSharpTidy
