import CSharpTidy.Proofs.OutlineLocality

/- Where the texts of an outline end. A declaration, the opening of a container and its closing text
   all end with a semicolon, a brace or a bracket, whatever stands in them. -/
namespace CSharpTidy.Outline

open Lexeme

/-- The text that closes a body is read as that in front of anything fresh. -/
def Shut (own : List Lexeme) : Prop :=
  ∃ l more, own = l :: more ∧ l.is "\x7d" ∧
    ∀ rest, Fresh rest → closingSize (more ++ rest) = more.length + 1

/-- The lexemes of the item at the front of `ls` are read as the item in front of anything
fresh. -/
def Item.Cut (scope : Scope) (ls : List Lexeme) : Item → Prop
  | .imported e => scope ≠ .typeBody ∧ startsImport ls ∧
      ∀ rest, readImport (ls.take e.size ++ rest) = .ok (.imported e, rest)
  | .attribute e => scope = .compilationUnit ∧ startsGlobalAttribute ls ∧
      ∀ rest, readGlobalAttribute (ls.take e.size ++ rest) = .ok (.attribute e, rest)
  | item => ∀ rest, Fresh rest →
      readMember scope (ls.take item.entry.size ++ rest) = .ok (item, rest)

mutual

def Entry.Ends (role : Role) (scope : Scope) : Entry → List Lexeme → Prop
  | ⟨kind, visibility, key, size, body⟩, ls => Closed (ls.take size) ∧
      Body.EndsOption role scope ⟨kind, visibility, key, size, none⟩ body ls

def Body.EndsOption (role : Role) (scope : Scope) (header : Entry) :
    Option (Body Entry) → List Lexeme → Prop
  | none, ls => (role.item header).Cut scope ls
  | some body, ls => (Item.container header (innerScope header.kind) body.braced).Cut scope ls ∧
      Body.Ends (innerScope header.kind) body (ls.drop header.size)

def Body.Ends (scope : Scope) : Body Entry → List Lexeme → Prop
  | ⟨_, imports, attributes, members, closing⟩, ls =>
      Entry.EndsAll .imported scope imports ls ∧
        Entry.EndsAll .attribute scope attributes (ls.drop (Entry.countAll imports)) ∧
        Entry.EndsAll .member scope members
          (ls.drop (Entry.countAll imports + Entry.countAll attributes)) ∧
        (0 < closing → Shut ((ls.drop (Entry.countAll imports + Entry.countAll attributes +
          Entry.countAll members)).take closing))

def Entry.EndsAll (role : Role) (scope : Scope) : List Entry → List Lexeme → Prop
  | [], _ => True
  | e :: rest, ls =>
      Entry.Ends role scope e ls ∧ Entry.EndsAll role scope rest (ls.drop (Entry.count e))

end

variable {role : Role} {scope : Scope}

theorem Entry.endsAll_append (as bs : List Entry) (ls : List Lexeme) :
    Entry.EndsAll role scope (as ++ bs) ls ↔ Entry.EndsAll role scope as ls ∧
      Entry.EndsAll role scope bs (ls.drop (Entry.countAll as)) := by
  induction as generalizing ls with
  | nil => simp [Entry.EndsAll, Entry.countAll]
  | cons e as ih =>
    simp only [List.cons_append, Entry.EndsAll, Entry.countAll, ih, List.drop_drop, and_assoc]

variable {ls rest : List Lexeme} {p : Partial} {body : Body Entry} {item : Item}

theorem Entry.endsAll_concat {as : List Entry} {e : Entry} (h : Entry.EndsAll role scope as ls)
    (last : e.Ends role scope (ls.drop (Entry.countAll as))) :
    Entry.EndsAll role scope (as ++ [e]) ls :=
  (Entry.endsAll_append ..).mpr ⟨h, last, trivial⟩

theorem Entry.ends_with_body (header : Entry) (body : Body Entry) (ls : List Lexeme) :
    Entry.Ends role scope { header with body := some body } ls ↔
      Closed (ls.take header.size) ∧ (Item.container { header with body := none }
        (innerScope header.kind) body.braced).Cut scope ls ∧
      body.Ends (innerScope header.kind) (ls.drop header.size) := by
  cases header
  rfl

theorem Partial.read_cut (h : p.read ls = .ok (item, rest)) :
    item.Cut p.scope ls ∧ Closed (ls.take item.entry.size) ∧ ls.drop item.entry.size = rest := by
  have size := (Partial.read_known h).1.size
  have taken : ∀ {own : List Lexeme}, ls = own ++ rest →
      ls.take item.entry.size = own ∧ ls.drop item.entry.size = rest := by
    rintro own rfl
    rw [size, extent_append, List.take_left, List.drop_left]
    exact ⟨rfl, rfl⟩
  unfold Partial.read at h
  simp only [Bool.and_eq_true, bne_iff_ne, beq_iff_eq] at h
  split at h
  · rename_i starts
    obtain ⟨own, e, whole, closed, rfl, reads⟩ := readImport_local h
    rw [← (taken whole).1] at reads closed
    exact ⟨⟨starts.1.1.1, starts.2, reads⟩, closed, (taken whole).2⟩
  · split at h
    · rename_i starts
      obtain ⟨own, e, whole, closed, rfl, reads⟩ := readGlobalAttribute_local h
      rw [← (taken whole).1] at reads closed
      exact ⟨⟨starts.1.2, starts.2, reads⟩, closed, (taken whole).2⟩
    · obtain ⟨own, whole, closed, reads⟩ := readMember_local h
      rw [← (taken whole).1] at reads closed
      refine ⟨?_, closed, (taken whole).2⟩
      have role := (readMember_known h).2
      rcases item with _ | _ | _ | _ <;> first | exact reads | cases role

theorem Partial.read_suffix (h : p.read ls = .ok (item, rest)) : rest <:+ ls :=
  (Partial.read_cut h).2.2 ▸ List.drop_suffix ..

theorem Partial.read_ends (h : p.read ls = .ok (item, rest)) :
    (∀ role e, item = Role.item role e → e.Ends role p.scope ls) ∧
      Closed (ls.take item.entry.size) ∧ ls.drop item.entry.size = rest ∧
      item.entry.count = item.entry.size := by
  have unbodied := (Partial.read_known h).1.body
  obtain ⟨cut, closed, left⟩ := Partial.read_cut h
  refine ⟨fun role e eq => ?_, closed, left, Entry.count_of_no_body unbodied⟩
  rw [eq] at cut
  have same : item.entry = e := by cases role <;> exact congrArg Item.entry eq
  rw [same] at unbodied closed
  obtain ⟨kind, visibility, key, n, body⟩ := e
  cases unbodied
  exact ⟨closed, cut⟩

namespace Partial

theorem ends_add (role : Role) {e : Entry} {base : List Lexeme} (unclosed : p.body.closing = 0)
    (awaits : role.Awaits p) (h : p.body.Ends p.scope base)
    (new : e.Ends role p.scope (base.drop p.count)) : (role.add p [e]).body.Ends p.scope base := by
  obtain ⟨scope, braced, imports, attributes, members, closing⟩ := p
  cases unclosed
  obtain ⟨imported, attributed, membered, -⟩ := h
  have never {P : Prop} (positive : 0 < 0) : P := absurd positive (Nat.lt_irrefl 0)
  cases role
  · obtain ⟨none, none'⟩ := awaits
    cases none
    cases none'
    refine ⟨Entry.endsAll_concat imported ?_, trivial, trivial, never⟩
    simpa [count, Body.count, Entry.countAll] using new
  · cases awaits
    refine ⟨imported, Entry.endsAll_concat attributed ?_, trivial, never⟩
    rw [List.drop_drop]
    simpa [count, Body.count, Entry.countAll, Role.add] using new
  · refine ⟨imported, attributed, Entry.endsAll_concat membered ?_, never⟩
    rw [List.drop_drop]
    simpa [count, Body.count, Role.add] using new

end Partial

/-- The containers around a body that starts at `base`, out to a file that starts at `whole`. -/
def Around (whole : List Lexeme) :
    List (Entry × Partial) → Scope → Bool → List Lexeme → Prop
  | [], scope, _, base => scope = .compilationUnit ∧ base = whole
  | (header, parent) :: outer, scope, braced, base => parent.body.closing = 0 ∧
      scope = innerScope header.kind ∧ ∃ base', parent.body.Ends parent.scope base' ∧
      Closed ((base'.drop parent.count).take header.size) ∧
      (Item.container { header with body := none } scope braced).Cut parent.scope
        (base'.drop parent.count) ∧
      base = base'.drop (parent.count + header.size) ∧
      Around whole outer parent.scope parent.body.braced base'

theorem shut_closing {l : Lexeme} (h : l.is "\x7d") (rest : List Lexeme) :
    Shut ((l :: rest).take (closingSize rest)) := by
  unfold closingSize
  split
  · rename_i semicolon
    cases rest with
    | nil => simp [startsWith] at semicolon
    | cons m rest => exact ⟨l, [m], rfl, h, fun rest _ => if_pos semicolon⟩
  · exact ⟨l, [], rfl, h, fun rest fresh => by simp [closingSize, fresh.1]⟩

theorem Shut.closed {own : List Lexeme} (h : Shut own) : Closed own := by
  obtain ⟨l, more, rfl, brace, size⟩ := h
  have alone := size [] ⟨rfl, rfl⟩
  rw [List.append_nil, closingSize] at alone
  split at alone
  · rename_i semicolon
    obtain ⟨m, rfl⟩ := List.length_eq_one_iff.mp (Nat.succ.inj alone).symm
    exact ⟨m, rfl, Lexeme.closes_of_is semicolon (by simp)⟩
  · obtain rfl := List.length_eq_zero_iff.mp (Nat.succ.inj alone).symm
    exact ⟨l, rfl, Lexeme.closes_of_is brace (by simp)⟩

theorem Body.ends_closing {b : Body Entry} (unclosed : b.closing = 0) {base : List Lexeme}
    (h : b.Ends scope base) {n : Nat} (closed : Shut ((base.drop b.count).take n)) :
    Body.Ends scope { b with closing := n } base := by
  obtain ⟨braced, imports, attributes, members, closing⟩ := b
  cases unclosed
  obtain ⟨imported, attributed, membered, -⟩ := h
  exact ⟨imported, attributed, membered, fun _ => closed⟩

theorem read_ends {current : Partial} {outer : List (Entry × Partial)}
    (h : read current outer ls = .ok body) {whole base : List Lexeme}
    (unclosed : current.body.closing = 0) (ends : current.body.Ends current.scope base)
    (ahead : ls = base.drop current.count)
    (around : Around whole outer current.scope current.body.braced base) :
    body.Ends .compilationUnit whole := by
  fun_induction read current outer ls generalizing base with
  | case1 => cases h
  | case2 =>
    cases h
    obtain ⟨unit, rfl⟩ := around
    exact unit ▸ ends
  | case3 current _ header parent outer ih =>
    obtain ⟨parentUnclosed, inner, base', parentEnds, opening, cut, rfl, around⟩ := around
    refine ih h parentUnclosed (Partial.ends_add .member parentUnclosed trivial parentEnds ?_) ?_
      around
    · rw [Entry.ends_with_body, List.drop_drop]
      exact ⟨opening, inner ▸ cut, inner ▸ ends⟩
    · rw [Partial.count_addContainer, ← Nat.add_assoc, ← List.drop_drop]
      exact ahead
  | case4 current l rest brace header parent outer _ size ih =>
    obtain ⟨parentUnclosed, inner, base', parentEnds, opening, cut, rfl, around⟩ := around
    have closed := Body.ends_closing (n := size) unclosed ends (by
      rw [show Body.count current.body = current.count from rfl, ← ahead]
      exact shut_closing brace rest)
    refine ih h parentUnclosed (Partial.ends_add .member parentUnclosed trivial parentEnds ?_) ?_
      around
    · rw [Entry.ends_with_body, List.drop_drop]
      exact ⟨opening, inner ▸ cut, inner ▸ closed⟩
    · have positive : 0 < size := by
        simp only [size, closingSize]
        split <;> omega
      have left : (l :: rest).drop size = rest.drop (size - 1) := by
        rw [← Nat.succ_pred_eq_of_pos positive]
        rfl
      simp only [wfParam]
      rw [← left, ahead, Partial.count_addContainer, Body.count_closed unclosed, List.drop_drop,
        List.drop_drop]
      simp only [Partial.count, Nat.add_assoc]
  | case5 => cases h
  | case6 => cases h
  | case7 current outer l rest _ e after item ih =>
    obtain ⟨new, -, left, count⟩ := Partial.read_ends item
    refine ih h unclosed (Partial.ends_add .imported unclosed (Partial.read_known item).2 ends
      (ahead ▸ new .imported e rfl)) ?_ around
    rw [Partial.count_addImport, ← List.drop_drop, ← ahead]
    exact (count ▸ left).symm
  | case8 current outer l rest _ e after item ih =>
    obtain ⟨new, -, left, count⟩ := Partial.read_ends item
    refine ih h unclosed (Partial.ends_add .attribute unclosed (Partial.read_known item).2 ends
      (ahead ▸ new .attribute e rfl)) ?_ around
    rw [Partial.count_addAttribute, ← List.drop_drop, ← ahead]
    exact (count ▸ left).symm
  | case9 current outer l rest _ e after item ih =>
    obtain ⟨new, -, left, count⟩ := Partial.read_ends item
    refine ih h unclosed (Partial.ends_add .member unclosed trivial ends
      (ahead ▸ new .member e rfl)) ?_ around
    rw [Partial.count_addMember, ← List.drop_drop, ← ahead]
    exact (count ▸ left).symm
  | case10 current outer l rest _ header scope braced after item ih =>
    obtain ⟨-, closed, left, -⟩ := Partial.read_ends item
    have unbodied : { header with body := none } = header := by
      have none := (Partial.read_known item).1.body
      cases header
      cases none
      rfl
    refine ih h rfl ⟨trivial, trivial, trivial, by simp [Partial.empty]⟩ rfl
      ⟨unclosed, ?_, base, ends, ?_, ?_, ?_, around⟩
    · exact ((Partial.read_known item).1.opens rfl).2.1
    · exact ahead ▸ closed
    · rw [unbodied, ← ahead]
      exact (Partial.read_cut item).1
    · rw [← List.drop_drop, ← ahead]
      exact left.symm

theorem ofLexemes_ends (h : ofLexemes ls = .ok body) : body.Ends .compilationUnit ls :=
  read_ends h rfl ⟨trivial, trivial, trivial, by simp [Partial.empty]⟩ rfl ⟨rfl, rfl⟩

end CSharpTidy.Outline
