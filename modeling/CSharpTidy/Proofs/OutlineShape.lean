import CSharpTidy.Proofs.OutlineSize

/- The shape of an outline that was read from a text. Braces are closed by the end of their
   container; a namespace without braces is the last member of its body, up to the end of the
   file. -/
namespace CSharpTidy.Outline

structure Entry.Plain (e : Entry) : Prop where
  size : 0 < e.size
  body : e.body = none

inductive Entry.Closed : Entry → Prop
  | plain {e : Entry} (h : e.Plain) : Closed e
  | container {header : Entry} {b : Body Entry} (size : 0 < header.size) (braced : b.braced)
      (closing : 0 < b.closing) (preamble : ∀ e ∈ b.imports ++ b.attributes, e.Plain)
      (members : ∀ e ∈ b.members, Closed e) : Closed { header with body := some b }

structure Entry.Opens (header : Entry) : Prop where
  size : 0 < header.size
  kind : ∃ kind, header.kind = .container kind

/-- A body that reaches up to the end of the file. It is not the body of a type, so that no field
is in it. -/
inductive Body.Open : Body Entry → Prop
  | last {b : Body Entry} (unbraced : b.braced = false) (unclosed : b.closing = 0)
      (preamble : ∀ e ∈ b.imports ++ b.attributes, e.Plain) (members : ∀ e ∈ b.members, e.Closed)
      (fields : ∀ e ∈ b.members, e.kind ≠ .field) : Open b
  | fileScoped {b inner : Body Entry} {before : List Entry} {header : Entry}
      (unbraced : b.braced = false) (unclosed : b.closing = 0)
      (preamble : ∀ e ∈ b.imports ++ b.attributes, e.Plain) (closed : ∀ e ∈ before, e.Closed)
      (opens : header.Opens) (members : b.members = before ++ [{ header with body := some inner }])
      (rest : Open inner) (fields : ∀ e ∈ b.members, e.kind ≠ .field) : Open b

/-- Everything in a body that is still open is closed. Types have braces, and fields stand in types
only. -/
structure Partial.Filled (p : Partial) : Prop where
  unclosed : p.body.closing = 0
  preamble : ∀ e ∈ p.body.imports ++ p.body.attributes, e.Plain
  members : ∀ e ∈ p.body.members, e.Closed
  types : p.scope = .typeBody → p.body.braced
  fields : p.scope ≠ .typeBody → ∀ e ∈ p.body.members, e.kind ≠ .field

variable {p current : Partial} {outer : List (Entry × Partial)} {body : Body Entry}
  {ls : List Lexeme} {header : Entry}

theorem Partial.read_plain {rest : List Lexeme} {item : Item} (h : p.read ls = .ok (item, rest)) :
    item.entry.Plain := by
  have known := (Partial.read_known h).1
  have passed := Partial.read_length h
  refine ⟨?_, known.body⟩
  rw [known.size, extent]
  omega

theorem Entry.Opens.ne_field (h : header.Opens) : header.kind ≠ .field := by
  obtain ⟨kind, container⟩ := h.kind
  simp [container]

namespace Partial

theorem filled_empty {scope : Scope} {braced : Bool} (types : scope = .typeBody → braced) :
    (empty scope braced).Filled :=
  ⟨rfl, by simp [empty], by simp [empty], types, by simp [empty]⟩

variable {e : Entry}

theorem Filled.addImport (h : p.Filled) (plain : e.Plain) : (p.addImport e).Filled :=
  ⟨h.unclosed, by simpa [Partial.addImport, or_imp, forall_and, plain] using h.preamble, h.members,
    h.types, h.fields⟩

theorem Filled.addAttribute (h : p.Filled) (plain : e.Plain) : (p.addAttribute e).Filled :=
  ⟨h.unclosed, by simpa [Partial.addAttribute, or_imp, forall_and, plain] using h.preamble, h.members,
    h.types, h.fields⟩

theorem Filled.addMember (h : p.Filled) (closed : e.Closed)
    (kind : p.scope ≠ .typeBody → e.kind ≠ .field) : (p.addMember e).Filled := by
  refine ⟨h.unclosed, h.preamble, ?_, h.types, fun outside => ?_⟩
  · simpa [Partial.addMember, or_imp, forall_and, closed] using h.members
  · rw [Partial.addMember, List.forall_mem_append, List.forall_mem_singleton]
    exact ⟨h.fields outside, kind outside⟩

theorem Filled.fields_of_unbraced (h : p.Filled) (unbraced : p.body.braced = false) :
    ∀ e ∈ p.body.members, e.kind ≠ .field := by
  refine h.fields fun inType => ?_
  rw [h.types inType] at unbraced
  cases unbraced

end Partial

theorem Partial.Filled.fileScoped (h : p.Filled) (unbraced : p.body.braced = false)
    (opens : header.Opens) {inner : Body Entry} (rest : inner.Open) :
    (p.addContainer header inner).body.Open := by
  refine .fileScoped unbraced h.unclosed h.preamble h.members opens rfl rest ?_
  rw [Partial.addContainer, Partial.addMember, List.forall_mem_append, List.forall_mem_singleton]
  exact ⟨h.fields_of_unbraced unbraced, opens.ne_field⟩

theorem Partial.Filled.last (h : p.Filled) (unbraced : p.body.braced = false) : p.body.Open :=
  .last unbraced h.unclosed h.preamble h.members (h.fields_of_unbraced unbraced)

theorem read_nil_open (h : read current outer [] = .ok body)
    (own : current.body.braced = false → current.body.Open)
    (outerFilled : ∀ p ∈ outer, p.1.Opens ∧ p.2.Filled) : body.Open := by
  induction outer generalizing current with
  | nil =>
    rw [read] at h
    split at h
    · cases h
    · rename_i unbraced
      cases h
      exact own (by simpa using unbraced)
  | cons p outer ih =>
    obtain ⟨header, parent⟩ := p
    rw [List.forall_mem_cons] at outerFilled
    obtain ⟨⟨opens, filled⟩, outerFilled⟩ := outerFilled
    rw [read] at h
    split at h
    · cases h
    · rename_i unbraced
      exact ih h (fun parentUnbraced => filled.fileScoped parentUnbraced opens
        (own (by simpa using unbraced))) outerFilled

theorem read_open (h : read current outer ls = .ok body) (filled : current.Filled)
    (outerFilled : ∀ p ∈ outer, p.1.Opens ∧ p.2.Filled) : body.Open := by
  fun_induction read current outer ls with
  | case1 => cases h
  | case2 current unbraced =>
    cases h
    exact filled.last (by simpa using unbraced)
  | case3 current unbraced header parent outer ih =>
    rw [List.forall_mem_cons] at outerFilled
    obtain ⟨⟨opens, parentFilled⟩, outerFilled⟩ := outerFilled
    exact read_nil_open h (fun parentUnbraced => parentFilled.fileScoped parentUnbraced opens
      (filled.last (by simpa using unbraced))) outerFilled
  | case4 current l rest _ header parent outer braced size ih =>
    rw [List.forall_mem_cons] at outerFilled
    obtain ⟨⟨opens, parentFilled⟩, outerFilled⟩ := outerFilled
    have closing : 0 < closingSize rest := by
      unfold closingSize
      split <;> omega
    exact ih h (parentFilled.addMember (.container opens.size braced closing filled.preamble
      filled.members) fun _ => opens.ne_field) outerFilled
  | case5 => cases h
  | case6 => cases h
  | case7 current outer l rest _ e after item ih =>
    exact ih h (filled.addImport (Partial.read_plain item)) outerFilled
  | case8 current outer l rest _ e after item ih =>
    exact ih h (filled.addAttribute (Partial.read_plain item)) outerFilled
  | case9 current outer l rest _ e after item ih =>
    exact ih h (filled.addMember (.plain (Partial.read_plain item))
      (Partial.read_known item).1.field) outerFilled
  | case10 current outer l rest _ header scope braced after item ih =>
    obtain ⟨kind, -, types⟩ := (Partial.read_known item).1.opens rfl
    exact ih h (Partial.filled_empty types) (List.forall_mem_cons.mpr
      ⟨⟨⟨(Partial.read_plain item).size, kind⟩, filled⟩, outerFilled⟩)

/-- An outline reaches up to the end of the file. -/
theorem ofLexemes_open (h : ofLexemes ls = .ok body) : body.Open :=
  read_open h (Partial.filled_empty (by simp)) (by simp)

end CSharpTidy.Outline
