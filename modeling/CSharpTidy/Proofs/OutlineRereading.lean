import CSharpTidy.Proofs.OutlineEnds

/- Declarations that are read again in another order. One that starts as a declaration of its own is
   added to its body wherever it stands there, so a body may be put in any order that keeps imports,
   attributes and members apart. -/

namespace CSharpTidy.Outline

open Lexeme

/-- A member that starts so is read as one, whatever stands in front of it in its body. -/
def standsAlone (scope : Scope) (ls : List Lexeme) : Bool :=
  !startsWith ls "\x7d" && !startsWith ls ";" && !startsWith ls "=" &&
    (scope == .typeBody || !startsImport ls) &&
    (scope != .compilationUnit || !startsGlobalAttribute ls)

def Entry.isClosed (e : Entry) : Bool :=
  e.body.all Body.braced

mutual

def Entry.lone (scope : Scope) : Entry → List Lexeme → Bool
  | ⟨kind, _, _, size, body⟩, ls =>
      standsAlone scope ls && Body.loneOption (innerScope kind) body (ls.drop size)

def Body.loneOption (scope : Scope) : Option (Body Entry) → List Lexeme → Bool
  | none, _ => true
  | some body, ls => Body.lone scope body ls

/-- Every member starts as one, and a namespace without braces has its body to itself. -/
def Body.lone (scope : Scope) : Body Entry → List Lexeme → Bool
  | ⟨_, imports, attributes, members, _⟩, ls =>
      (members.all Entry.isClosed || members.length == 1) &&
        Entry.loneAll scope members (ls.drop (Entry.countAll imports + Entry.countAll attributes))

def Entry.loneAll (scope : Scope) : List Entry → List Lexeme → Bool
  | [], _ => true
  | e :: rest, ls => Entry.lone scope e ls && Entry.loneAll scope rest (ls.drop (Entry.count e))

end

/-- A closer is none of the words that tell an import or a global attribute. -/
theorem not_is_of_closes {l : Lexeme} (h : l.closes) :
    ∀ text ∈ ["extern", "alias", "global", "using", "static", "unsafe", "(", "[", "assembly",
      "module"], l.is text = false := by
  simp only [closes, Bool.or_eq_true, beq_iff_eq] at h
  obtain ((text | text) | text) | text := h <;> simp [Lexeme.is, text]

variable {ls own : List Lexeme} {scope : Scope} {header e : Entry} {es : List Entry} {role : Role}
  {item : Item}

theorem Entry.isClosed_of_lone (h : es.all Entry.isClosed || es.length == 1) :
    ∀ e ∈ es, e.isClosed = es.all Entry.isClosed := by
  intro e mem
  cases all : es.all Entry.isClosed with
  | true => exact List.all_eq_true.mp all e mem
  | false =>
    rw [all, Bool.false_or, beq_iff_eq, List.length_eq_one_iff] at h
    obtain ⟨d, rfl⟩ := h
    simpa [List.mem_singleton.mp mem] using all

theorem Entry.isClosed_of_unbodied (h : e.body = none) : e.isClosed := by
  simp [isClosed, h]

/-- What lets an entry be read again: as a member it stands alone, and nothing else has a body. -/
def Entry.Stands (scope : Scope) (e : Entry) (ls : List Lexeme) : Role → Prop
  | .member => e.lone scope ls
  | _ => e.body = none

def Entry.StandsAll (scope : Scope) (es : List Entry) (ls : List Lexeme) : Role → Prop
  | .member => Entry.loneAll scope es ls
  | _ => ∀ e ∈ es, e.body = none

theorem Entry.standsAll_cons (h : Entry.StandsAll scope (e :: es) ls role) :
    e.Stands scope ls role ∧ Entry.StandsAll scope es (ls.drop e.count) role := by
  cases role with
  | member => exact Bool.and_eq_true_iff.mp h
  | _ => exact List.forall_mem_cons.mp h

theorem startsGlobalAttribute_local (closed : Closed own) (rest rest' : List Lexeme) :
    startsGlobalAttribute (own ++ rest) = startsGlobalAttribute (own ++ rest') := by
  obtain ⟨l, last, closes⟩ := closed
  have other := not_is_of_closes closes
  simp only [List.forall_mem_cons] at other
  rcases own with _ | ⟨a, _ | ⟨b, _ | ⟨c, own⟩⟩⟩
  · cases last
  · obtain rfl : a = l := by simpa using last
    simp [startsGlobalAttribute, startsWith, other]
  · obtain rfl : b = l := by simpa using last
    simp [startsGlobalAttribute, startsWith, other]
  · rfl

theorem startsImport_local (closed : Closed own) (regular : ∀ l ∈ own, l.closes → l.isWord = false)
    (rest rest' : List Lexeme) : startsImport (own ++ rest) = startsImport (own ++ rest') := by
  obtain ⟨l, last, closes⟩ := closed
  have solid := regular l (List.mem_of_getLast? last) closes
  have other := not_is_of_closes closes
  simp only [List.forall_mem_cons] at other
  rcases own with _ | ⟨a, _ | ⟨b, _ | ⟨c, _ | ⟨d, own⟩⟩⟩⟩
  · cases last
  · obtain rfl : a = l := by simpa using last
    simp [startsImport, startsUsing, startsWith, other]
  · obtain rfl : b = l := by simpa using last
    cases first : a.is "global" <;>
      simp [startsImport, startsUsing, startsWith, startsWithWord, first, other, solid]
  · obtain rfl : c = l := by simpa using last
    cases first : a.is "global" <;>
      simp [startsImport, startsUsing, startsWith, startsWithWord, first, other, solid]
  · cases first : a.is "global" <;>
      simp [startsImport, startsUsing, startsWith, startsWithWord, first]

/-- A start that neither ends a body nor goes on with what is in front of it. -/
def Begins (ls : List Lexeme) : Prop :=
  startsWith ls "\x7d" = false ∧ Fresh ls

theorem begins_of_import (h : startsImport ls) : Begins ls := by
  cases ls with
  | nil => exact ⟨rfl, rfl, rfl⟩
  | cons l ls =>
    have first : l.text = "extern" ∨ l.text = "global" ∨ l.text = "using" := by
      grind [startsImport, startsUsing, startsWith, Lexeme.is]
    rcases first with text | text | text <;> simp [Begins, Fresh, startsWith, Lexeme.is, text]

theorem begins_of_attribute (h : startsGlobalAttribute ls) :
    Begins ls ∧ startsImport ls = false := by
  cases ls with
  | nil => exact ⟨⟨rfl, rfl, rfl⟩, rfl⟩
  | cons l ls =>
    have first : l.text = "[" := by grind [startsGlobalAttribute, startsWith, Lexeme.is]
    simp [Begins, Fresh, startsImport, startsUsing, startsWith, Lexeme.is, first]

/-- The lexemes start a declaration and are read as the item in front of anything fresh. -/
structure Reads (scope : Scope) (own : List Lexeme) (item : Item) : Prop where
  nonempty : own ≠ []
  begins : Begins own
  reads : ∀ {p : Partial} {rest : List Lexeme}, p.scope = scope → item.role.Awaits p →
    Fresh rest → p.read (own ++ rest) = .ok (item, rest)

theorem Item.Cut.reads (h : item.Cut scope ls) (closed : Closed (ls.take item.entry.size))
    (regular : ∀ l ∈ ls, l.closes → l.isWord = false)
    (alone : item.role = .member → standsAlone scope ls) :
    Reads scope (ls.take item.entry.size) item := by
  have nonempty := closed.nonempty
  have whole := List.take_append_drop item.entry.size ls
  have imports : ∀ rest, startsImport (ls.take item.entry.size ++ rest) = startsImport ls := by
    intro rest
    rw [startsImport_local closed (fun l mem => regular l (List.mem_of_mem_take mem)) rest
      (ls.drop item.entry.size), whole]
  have attributes : ∀ rest, startsGlobalAttribute (ls.take item.entry.size ++ rest) =
      startsGlobalAttribute ls := by
    intro rest
    rw [startsGlobalAttribute_local closed rest (ls.drop item.entry.size), whole]
  have first : Begins ls → Begins (ls.take item.entry.size) := by
    cases front : ls.take item.entry.size with
    | nil => exact absurd front nonempty
    | cons l more =>
      rw [front] at whole
      rw [← whole]
      exact id
  -- Imports and attributes are told first, so only a member may be taken for something else.
  have member : (∀ rest, Fresh rest →
        readMember scope (ls.take item.entry.size ++ rest) = .ok (item, rest)) →
      item.role = .member → Reads scope (ls.take item.entry.size) item := by
    intro reads role
    have alone := alone role
    simp only [standsAlone, Bool.and_eq_true, Bool.or_eq_true, Bool.not_eq_true', beq_iff_eq,
      bne_iff_ne] at alone
    obtain ⟨⟨⟨⟨brace, semicolon⟩, equals⟩, unimported⟩, unattributed⟩ := alone
    refine ⟨nonempty, first ⟨brace, semicolon, equals⟩, fun {p rest} same _ fresh => ?_⟩
    rw [Partial.read, if_neg, if_neg, same, reads rest fresh]
    · simp only [same, attributes, Bool.and_eq_true, beq_iff_eq]
      exact fun found => unattributed.elim (absurd found.1.2) (by simp [found.2])
    · simp only [same, imports, Bool.and_eq_true, bne_iff_ne]
      exact fun found => unimported.elim found.1.1.1 (by simp [found.2])
  rcases item with e | e | e | ⟨header, inner, braced⟩
  · obtain ⟨unit, starts, reads⟩ := h
    refine ⟨nonempty, first (begins_of_import starts), fun {p rest} same awaits _ => ?_⟩
    rw [← reads rest, Partial.read, if_pos]
    · rfl
    · simpa [same, unit, awaits.1, awaits.2] using (imports rest).trans starts
  · obtain ⟨rfl, starts, reads⟩ := h
    obtain ⟨begins, unimported⟩ := begins_of_attribute starts
    refine ⟨nonempty, first begins, fun {p rest} same awaits _ => ?_⟩
    have members : p.body.members = [] := awaits
    rw [← reads rest, Partial.read, if_neg, if_pos]
    · rfl
    · simpa [same, members] using (attributes rest).trans starts
    · simp [imports, unimported]
  · exact member h rfl
  · exact member h rfl

/-- The lexemes add the entry to a body that awaits it. One that is not closed needs the end of the
file behind it. -/
structure Steps (role : Role) (scope : Scope) (closed : Bool) (e : Entry) (own : List Lexeme) :
    Prop where
  nonempty : own ≠ []
  fresh : Fresh own
  steps : ∀ {p : Partial} {outer : List (Entry × Partial)} {rest : List Lexeme}, p.scope = scope →
    role.Awaits p → Fresh rest → (closed = false → rest = []) →
    read p outer (own ++ rest) = read (role.add p [e]) outer rest

theorem Entry.reads_opening {b : Body Entry}
    (ends : Entry.Ends role scope { header with body := some b } ls)
    (regular : ∀ l ∈ ls, l.closes → l.isWord = false)
    (lone : Entry.lone scope { header with body := some b } ls) :
    Reads scope (ls.take header.size) (.container { header with body := none }
        (innerScope header.kind) b.braced) ∧
      b.lone (innerScope header.kind) (ls.drop header.size) := by
  obtain ⟨kind, visibility, key, size, body⟩ := header
  obtain ⟨closed, cut, -⟩ := ends
  obtain ⟨alone, inside⟩ := Bool.and_eq_true_iff.mp lone
  exact ⟨cut.reads closed regular fun _ => alone, inside⟩

theorem Fresh.append {rest : List Lexeme} (nonempty : own ≠ []) (h : Fresh own) :
    Fresh (own ++ rest) := by
  cases own with
  | nil => exact absurd rfl nonempty
  | cons l own => exact h

theorem Reads.unclosed (h : Reads scope own item) (rest : List Lexeme) :
    startsWith (own ++ rest) "\x7d" = false := by
  obtain ⟨l, more, rfl⟩ := List.exists_cons_of_ne_nil h.nonempty
  exact h.begins.1

section

variable {role : Role} {scope : Scope} {own rest : List Lexeme} {p : Partial}
  {outer : List (Entry × Partial)}

theorem Reads.whole (h : Reads scope own (role.item e)) : Steps role scope true e own := by
  refine ⟨h.nonempty, h.begins.2, fun {p outer rest} same awaits fresh _ => ?_⟩
  rw [read_item (h.reads same (by cases role <;> exact awaits) fresh) (h.unclosed rest)]
  cases role <;> rfl

theorem Entry.steps_plain (unbodied : e.body = none) (ends : e.Ends role scope ls)
    (regular : ∀ l ∈ ls, l.closes → l.isWord = false) (stands : e.Stands scope ls role) :
    Steps role scope e.isClosed e (ls.take e.size) := by
  obtain ⟨kind, visibility, key, size, body⟩ := e
  cases unbodied
  have same : (role.item ⟨kind, visibility, key, size, none⟩).entry =
      ⟨kind, visibility, key, size, none⟩ := by cases role <;> rfl
  have reads := Item.Cut.reads ends.2 (by rw [same]; exact ends.1) regular fun member => by
    cases role with
    | member => exact (Bool.and_eq_true_iff.mp stands).1
    | _ => cases member
  rw [same] at reads
  exact reads.whole

variable {inner : Scope}

theorem Reads.opens {braced : Bool} (h : Reads scope own (.container header inner braced))
    (same : p.scope = scope) (fresh : Fresh rest) :
    read p outer (own ++ rest) = read (.empty inner braced) ((header, p) :: outer) rest :=
  read_item (h.reads same trivial fresh) (h.unclosed rest)

variable {α : Type} {entry : α → Entry} {text : α → List Lexeme} {xs : List α} {closed : Bool}

theorem fresh_flatMap (steps : ∀ x ∈ xs, Steps role scope closed (entry x) (text x))
    (fresh : Fresh rest) : Fresh (xs.flatMap text ++ rest) := by
  cases xs with
  | nil => exact fresh
  | cons x xs =>
    obtain ⟨nonempty, first, -⟩ := steps x List.mem_cons_self
    rw [List.flatMap_cons, List.append_assoc]
    exact first.append nonempty

theorem read_row (steps : ∀ x ∈ xs, Steps role scope closed (entry x) (text x))
    (alone : closed = false → xs.length ≤ 1 ∧ rest = []) (same : p.scope = scope)
    (awaits : role.Awaits p) (fresh : Fresh rest) :
    read p outer (xs.flatMap text ++ rest) = read (role.add p (xs.map entry)) outer rest := by
  induction xs generalizing p with
  | nil => cases role <;> simp [Role.add]
  | cons x xs ih =>
    rw [List.forall_mem_cons] at steps
    -- What is not closed takes all that is left, and so it is the last of its row.
    have none : closed = false → xs = [] := fun last => by simpa using (alone last).1
    rw [List.flatMap_cons, List.append_assoc,
      steps.1.steps same awaits (fresh_flatMap steps.2 fresh)
        (fun last => by simp [none last, (alone last).2]),
      ih steps.2 (fun last => ⟨by simp [none last], (alone last).2⟩)]
    · cases role <;> simp [Role.add]
    · cases role <;> exact same
    · cases role <;> simp_all [Role.Awaits, Role.add]

/-- The pieces of a body: its imports, its global attributes and its members. -/
structure Rows (entry : α → Entry) (text : α → List Lexeme) (scope : Scope)
    (imports attributes members : List α) (closed : Bool) : Prop where
  alone : closed = false → members.length ≤ 1
  imports : ∀ x ∈ imports, Steps .imported scope true (entry x) (text x)
  attributes : ∀ x ∈ attributes, Steps .attribute scope true (entry x) (text x)
  members : ∀ x ∈ members, Steps .member scope closed (entry x) (text x)

variable {imports attributes members : List α} {braced : Bool}

theorem Rows.fresh (h : Rows entry text scope imports attributes members closed)
    (fresh : Fresh rest) : Fresh ((imports ++ attributes ++ members).flatMap text ++ rest) := by
  simp only [List.flatMap_append, List.append_assoc]
  exact fresh_flatMap h.imports (fresh_flatMap h.attributes (fresh_flatMap h.members fresh))

theorem Rows.read (h : Rows entry text scope imports attributes members closed)
    (fresh : Fresh rest) (last : closed = false → rest = []) :
    Outline.read (.empty scope braced) outer
        ((imports ++ attributes ++ members).flatMap text ++ rest) =
      Outline.read ⟨scope, ⟨braced, imports.map entry, attributes.map entry, members.map entry, 0⟩⟩
        outer rest := by
  have inMembers := fresh_flatMap h.members fresh
  simp only [List.flatMap_append, List.append_assoc]
  rw [read_row h.imports (by simp) rfl ⟨rfl, rfl⟩ (fresh_flatMap h.attributes inMembers),
    read_row h.attributes (by simp) rfl (show _ = _ from rfl) inMembers,
    read_row h.members (fun ends => ⟨h.alone ends, last ends⟩) rfl trivial fresh]
  simp [Role.add, Partial.empty]

theorem Rows.ofLexemes (h : Rows entry text .compilationUnit imports attributes members closed) :
    ofLexemes ((imports ++ attributes ++ members).flatMap text) =
      .ok ⟨false, imports.map entry, attributes.map entry, members.map entry, 0⟩ := by
  have free : Fresh [] := ⟨rfl, rfl⟩
  rw [Outline.ofLexemes, ← List.append_nil (List.flatMap ..), h.read free fun _ => rfl,
    Outline.read]
  rfl

theorem Rows.container (h : Rows entry text inner imports attributes members closed)
    (opens : Reads scope own (.container header inner braced)) (closing : List Lexeme)
    (last : closed = false → braced = false) (shut : braced = true → Shut closing)
    (unshut : braced = false → closing = []) : Steps .member scope braced
      { header with body := some ⟨braced, imports.map entry, attributes.map entry,
          members.map entry, closing.length⟩ }
      (own ++ (imports ++ attributes ++ members).flatMap text ++ closing) := by
  refine ⟨by simp [opens.nonempty], ?_, fun {p outer rest} same _ fresh ends => ?_⟩
  · rw [List.append_assoc]
    exact opens.begins.2.append opens.nonempty
  rw [List.append_assoc, List.append_assoc]
  cases braced with
  | false =>
    obtain rfl := unshut rfl
    obtain rfl := ends rfl
    rw [List.append_nil, opens.opens same (h.fresh fresh), h.read fresh fun _ => rfl, Outline.read]
    rfl
  | true =>
    obtain ⟨l, more, rfl, brace, size⟩ := shut rfl
    have free : Fresh (l :: more ++ rest) := by
      simp only [Lexeme.is, Bool.and_eq_true, beq_iff_eq] at brace
      simp [Fresh, startsWith, Lexeme.is, brace]
    rw [opens.opens same (h.fresh free), h.read free (fun ends => by cases last ends),
      List.cons_append, Outline.read, if_pos brace]
    · simp only [size rest fresh, Nat.add_sub_cancel, List.drop_left]
      rfl
    · rfl

end

end CSharpTidy.Outline
