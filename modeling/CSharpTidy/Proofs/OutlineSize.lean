import CSharpTidy.Tree.Parse

/- How many lexemes an outline takes. A reading step counts exactly the lexemes it passes, so the
   outline of a text takes every lexeme of the text once. -/
namespace CSharpTidy.Outline

mutual

def Entry.count : Entry → Nat
  | ⟨_, _, _, size, body⟩ => size + Body.countOption body

def Body.countOption : Option (Body Entry) → Nat
  | none => 0
  | some body => Body.count body

def Body.count : Body Entry → Nat
  | ⟨_, imports, attributes, members, closing⟩ =>
      Entry.countAll imports + Entry.countAll attributes + Entry.countAll members + closing

def Entry.countAll : List Entry → Nat
  | [] => 0
  | e :: rest => Entry.count e + Entry.countAll rest

end

namespace Entry

@[simp] theorem countAll_append (as bs : List Entry) :
    countAll (as ++ bs) = countAll as + countAll bs := by
  induction as with
  | nil => simp [countAll]
  | cons e as ih => simp only [List.cons_append, countAll, ih]; omega

theorem count_of_no_body {e : Entry} (h : e.body = none) : e.count = e.size := by
  cases e
  cases h
  rfl

theorem count_with_body (header : Entry) (body : Body Entry) :
    count { header with body := some body } = header.size + body.count := by
  cases header
  rfl

end Entry

namespace Partial

def count (p : Partial) : Nat :=
  Body.count p.body

@[simp] theorem count_empty (scope : Scope) (braced : Bool) : (empty scope braced).count = 0 := rfl

theorem count_addImport (p : Partial) (e : Entry) : (p.addImport e).count = p.count + e.count := by
  obtain ⟨scope, braced, imports, attributes, members, closing⟩ := p
  simp only [addImport, count, Body.count, Entry.countAll_append, Entry.countAll]
  omega

theorem count_addAttribute (p : Partial) (e : Entry) :
    (p.addAttribute e).count = p.count + e.count := by
  obtain ⟨scope, braced, imports, attributes, members, closing⟩ := p
  simp only [addAttribute, count, Body.count, Entry.countAll_append, Entry.countAll]
  omega

theorem count_addMember (p : Partial) (e : Entry) : (p.addMember e).count = p.count + e.count := by
  obtain ⟨scope, braced, imports, attributes, members, closing⟩ := p
  simp only [addMember, count, Body.count, Entry.countAll_append, Entry.countAll]
  omega

theorem count_addContainer (p : Partial) (header : Entry) (body : Body Entry) :
    (p.addContainer header body).count = p.count + (header.size + body.count) := by
  rw [addContainer, count_addMember, Entry.count_with_body]

end Partial

def Item.entry : Item → Entry
  | .imported e | .attribute e | .member e | .container e _ _ => e

inductive Role where
  | imported
  | attribute
  | member

def Item.role : Item → Role
  | .imported _ => .imported
  | .attribute _ => .attribute
  | _ => .member

/-- What a body may not have yet when it is added to. -/
def Role.Awaits (p : Partial) : Role → Prop
  | .imported => p.body.attributes = [] ∧ p.body.members = []
  | .attribute => p.body.members = []
  | .member => True

def Role.item : Role → Entry → Item
  | .imported => .imported
  | .attribute => .attribute
  | .member => .member

def Role.add (p : Partial) (es : List Entry) : Role → Partial
  | .imported => { p with body := { p.body with imports := p.body.imports ++ es } }
  | .attribute => { p with body := { p.body with attributes := p.body.attributes ++ es } }
  | .member => { p with body := { p.body with members := p.body.members ++ es } }

def innerScope : DeclKind → Scope
  | .container .namespaceBody => .namespaceBody
  | _ => .typeBody

/-- What is read takes the lexemes of `ls` before `rest` and has no body yet. Only a container is
opened, and that of a type has braces; fields stand in types only. -/
structure Item.Known (scope : Scope) (ls rest : List Lexeme) (item : Item) : Prop where
  size : item.entry.size = extent ls rest
  body : item.entry.body = none
  field : scope ≠ .typeBody → item.entry.kind ≠ .field
  opens : ∀ {header inner braced}, item = .container header inner braced →
    (∃ kind, header.kind = .container kind) ∧ inner = innerScope header.kind ∧
      (inner = .typeBody → braced)

theorem classify_ne_field {scope : Scope} (outside : scope ≠ .typeBody) (ls : List Lexeme) :
    (Member.classify scope ls).1 ≠ .field := by
  unfold Member.classify Member.other
  split <;> try simp
  cases scope with
  | typeBody => exact absurd rfl outside
  | _ => simp

variable {scope : Scope} {ls rest : List Lexeme} {item : Item}

theorem readContainer_known {kind : ContainerKind} {visibility : Visibility} {keyword : List Lexeme}
    (h : readContainer kind visibility ls keyword = .ok (item, rest)) :
    item.Known scope ls rest ∧ item.role = .member := by
  unfold readContainer at h
  split at h
  · cases h
  cases kind <;> grind [Item.Known, innerScope, Item.entry, Item.role]

theorem readWholeType_known {kind : DeclKind} {key : DeclKey} {visibility : Visibility}
    {keyword : List Lexeme} (whole : kind ≠ .field)
    (h : readWholeType kind key visibility ls keyword = .ok (item, rest)) :
    item.Known scope ls rest ∧ item.role = .member := by
  grind [readWholeType, Item.Known, Item.entry, Item.role]

theorem readPlainMember_known {visibility : Visibility} {head : List Lexeme}
    (h : readPlainMember scope visibility ls head = .ok (item, rest)) :
    item.Known scope ls rest ∧ item.role = .member := by
  grind [readPlainMember, Item.Known, Item.entry, Item.role, classify_ne_field]

theorem readMember_known (h : readMember scope ls = .ok (item, rest)) :
    item.Known scope ls rest ∧ item.role = .member := by
  have container := @readContainer_known scope ls rest item
  have whole := @readWholeType_known scope ls rest item
  have plain := @readPlainMember_known scope ls rest item
  unfold readMember at h
  grind

variable {outer : List (Entry × Partial)} {current parent p : Partial} {body : Body Entry}
  {header : Entry}

theorem Partial.read_known (h : p.read ls = .ok (item, rest)) :
    item.Known p.scope ls rest ∧ item.role.Awaits p := by
  unfold Partial.read at h
  grind [→ readMember_known, readImport, readGlobalAttribute, Item.Known, Item.entry, Item.role,
    Role.Awaits, List.isEmpty_iff]

theorem Partial.read_count (h : p.read ls = .ok (item, rest)) :
    item.entry.count + rest.length = ls.length := by
  have known := (Partial.read_known h).1
  have passed := Partial.read_length h
  rw [Entry.count_of_no_body known.body, known.size, extent]
  omega

def Item.enter (current : Partial) (outer : List (Entry × Partial)) :
    Item → Partial × List (Entry × Partial)
  | .imported e => (current.addImport e, outer)
  | .attribute e => (current.addAttribute e, outer)
  | .member e => (current.addMember e, outer)
  | .container header scope braced => (.empty scope braced, (header, current) :: outer)

theorem read_unclosed (current : Partial) (outer : List (Entry × Partial)) {l : Lexeme}
    (unclosed : l.is "\x7d" = false) (ls : List Lexeme) :
    read current outer (l :: ls) = (current.read (l :: ls)).bind fun (item, after) =>
      read (item.enter current outer).1 (item.enter current outer).2 after := by
  rw [read.eq_def]
  simp only [unclosed, Bool.false_eq_true, if_false]
  split
  all_goals
    rename_i found
    rw [found]
    rfl

theorem read_item {after : List Lexeme} (h : current.read ls = .ok (item, after))
    (unclosed : Lexeme.startsWith ls "\x7d" = false) :
    read current outer ls = read (item.enter current outer).1 (item.enter current outer).2 after := by
  cases ls with
  | nil => exact absurd (Partial.read_length h) (by simp)
  | cons l ls =>
    rw [read_unclosed current outer unclosed, h]
    rfl

theorem read_close (braced : current.body.braced) {close : Lexeme} (closes : close.is "\x7d")
    (post : List Lexeme) : read current ((header, parent) :: outer) (close :: post) =
      read (parent.addContainer header { current.body with closing := closingSize post }) outer
        (post.drop (closingSize post - 1)) := by
  rw [read.eq_def]
  simp only [closes, if_true, braced]

theorem read_ending (outer : List (Entry × Partial)) (unbraced : current.body.braced = false) :
    read current ((header, parent) :: outer) [] =
      read (parent.addContainer header current.body) outer [] := by
  rw [read.eq_def]
  simp only [unbraced, Bool.false_eq_true, if_false]

def outerCount : List (Entry × Partial) → Nat
  | [] => 0
  | (header, parent) :: outer => header.size + parent.count + outerCount outer

theorem closing_count (l : Lexeme) (rest : List Lexeme) :
    closingSize rest + (rest.drop (closingSize rest - 1)).length = (l :: rest).length := by
  unfold closingSize
  split
  · rename_i semicolon
    cases rest with
    | nil => simp [Lexeme.startsWith] at semicolon
    | cons l' rest => simp; omega
  · simp; omega

theorem Body.count_closed (unclosed : body.closing = 0) (n : Nat) :
    Body.count { body with closing := n } = body.count + n := by
  cases body
  cases unclosed
  rfl

/-- What is read and what is ahead always add up to the lexemes of the file. No body that is open
has a closing text. -/
theorem read_count (h : read current outer ls = .ok body) (unclosed : current.body.closing = 0)
    (outerUnclosed : ∀ p ∈ outer, p.2.body.closing = 0) :
    body.closing = 0 ∧ body.count = current.count + outerCount outer + ls.length := by
  fun_induction read current outer ls with
  | case1 => cases h
  | case2 =>
    cases h
    exact ⟨unclosed, rfl⟩
  | case3 current _ header parent outer ih =>
    rw [List.forall_mem_cons] at outerUnclosed
    have := ih h outerUnclosed.1 outerUnclosed.2
    rw [Partial.count_addContainer] at this
    simp only [outerCount, Partial.count] at this ⊢
    omega
  | case4 current l rest _ header parent outer _ size ih =>
    rw [List.forall_mem_cons] at outerUnclosed
    have := ih h outerUnclosed.1 outerUnclosed.2
    have closing := closing_count l rest
    rw [Partial.count_addContainer, Body.count_closed unclosed] at this
    simp only [wfParam, outerCount, Partial.count, size] at this ⊢
    omega
  | case5 => cases h
  | case6 => cases h
  | case7 current outer l rest _ e after item ih =>
    have := ih h unclosed outerUnclosed
    have passed := Partial.read_count item
    rw [Partial.count_addImport] at this
    simp only [Item.entry] at passed
    omega
  | case8 current outer l rest _ e after item ih =>
    have := ih h unclosed outerUnclosed
    have passed := Partial.read_count item
    rw [Partial.count_addAttribute] at this
    simp only [Item.entry] at passed
    omega
  | case9 current outer l rest _ e after item ih =>
    have := ih h unclosed outerUnclosed
    have passed := Partial.read_count item
    rw [Partial.count_addMember] at this
    simp only [Item.entry] at passed
    omega
  | case10 current outer l rest _ header scope braced after item ih =>
    have := ih h rfl (List.forall_mem_cons.mpr ⟨unclosed, outerUnclosed⟩)
    have passed := Partial.read_count item
    rw [Entry.count_of_no_body (Partial.read_known item).1.body] at passed
    simp only [Item.entry, Partial.count_empty, outerCount] at passed this
    omega

theorem ofLexemes_count (h : ofLexemes ls = .ok body) :
    body.closing = 0 ∧ body.count = ls.length := by
  have := read_count h rfl (by simp)
  simpa [outerCount] using this

end CSharpTidy.Outline
