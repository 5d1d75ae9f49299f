import CSharpTidy.Proofs.Ordering

/- Directives as barriers. Tidying keeps every directive of a block where it stands: whatever was
   printed before it is printed before it again, in each block of the tree. -/
namespace CSharpTidy

/-- A directive other than a region marker, and how many declarations of its block are printed
before it. -/
structure Barrier where
  directive : Trivia
  before : Nat
  deriving DecidableEq, Repr

def Span.barriers (before : Nat) (span : Span) : List Barrier :=
  (span.filter Trivia.isGuardMarker).map fun t => ⟨t, before⟩

def Decl.barriersFrom (before : Nat) : List Decl → List Barrier
  | [] => []
  | d :: rest => Span.barriers before d.leading ++ Span.barriers (before + 1) d.trailing ++
      barriersFrom (before + 1) rest

def Block.barriers (b : Block Decl) : List Barrier :=
  Span.barriers 0 b.openTrailing ++ Decl.barriersFrom 0 b.decls ++
    Span.barriers b.decls.length b.closeLeading

/-- The same declaration, but for blanks and region markers around it and for its body. -/
structure Decl.Alike (d d' : Decl) : Prop where
  kind : d'.kind = d.kind
  visibility : d'.visibility = d.visibility
  key : d'.key = d.key
  text : d'.text = d.text
  lineIndent : d'.lineIndent = d.lineIndent
  leading : Span.unmarked d'.leading = Span.unmarked d.leading
  trailing : Span.unmarked d'.trailing = Span.unmarked d.trailing

mutual

/-- `order` lists the declarations of the first block as they stand in the second. The barriers
are the same, with as many declarations before each, and up to a barrier these are the same too.
All bodies are related in the same way. -/
inductive Block.SameSides : Block Decl → Block Decl → Prop
  | intro {a b : Block Decl} {order : List Decl}
      (barriers : b.barriers = a.barriers)
      (reordered : order.Perm a.decls)
      (sides : ∀ m ∈ a.barriers, (order.take m.before).Perm (a.decls.take m.before))
      (matched : List.Forall₂ Decl.SameSides order b.decls) : Block.SameSides a b

inductive Decl.SameSides : Decl → Decl → Prop
  | leaf {d d' : Decl} (alike : d.Alike d') (unbodied : d.block = none)
      (unbodied' : d'.block = none) : Decl.SameSides d d'
  | container {d d' : Decl} {a b : Block Decl} (alike : d.Alike d') (bodied : d.block = some a)
      (bodied' : d'.block = some b) (body : Block.SameSides a b) : Decl.SameSides d d'

end

variable {m : Barrier} {b : Block Decl} {before : Nat} {d d' : Decl}

namespace Span

theorem barriers_eq (before : Nat) (span : Span) :
    span.barriers before = span.unmarked.barriers before := by
  rw [barriers, barriers, filter_isGuardMarker]

theorem barriers_congr {a b : Span} (h : b.unmarked = a.unmarked) (before : Nat) :
    b.barriers before = a.barriers before := by
  rw [barriers_eq, h, ← barriers_eq]

variable {span : Span}

theorem barriers_eq_nil (h : span.hasGuardMarker = false) (before : Nat) :
    span.barriers before = [] := by
  simpa [barriers, hasGuardMarker] using h

theorem before_of_mem_barriers (h : m ∈ span.barriers before) : m.before = before := by
  simp only [barriers, List.mem_map] at h
  obtain ⟨t, -, rfl⟩ := h
  rfl

end Span

namespace Decl

theorem Alike.refl (d : Decl) : d.Alike d :=
  ⟨rfl, rfl, rfl, rfl, rfl, rfl, rfl⟩

variable {ds : List Decl} {pinned : Bool} {e : Decl}

theorem Alike.carried (h : d.Alike e) (c : Carried pinned e d') : d.Alike d' where
  kind := c.kind.trans h.kind
  visibility := c.visibility.trans h.visibility
  key := c.key.trans h.key
  text := c.text.trans h.text
  lineIndent := c.lineIndent.trans h.lineIndent
  leading := c.leading.unmarked.trans h.leading
  trailing := c.trailing.unmarked.trans h.trailing

theorem SameSides.alike (h : d.SameSides d') : d.Alike d' := by
  cases h <;> assumption

theorem SameSides.carried (h : d.SameSides e) (c : Carried pinned e d') : d.SameSides d' := by
  cases h with
  | leaf alike unbodied unbodied' =>
    exact .leaf (alike.carried c) unbodied (c.block.trans unbodied')
  | container alike bodied bodied' body =>
    exact .container (alike.carried c) bodied (c.block.trans bodied') body

theorem SameSides.spaced {f : Decl → Decl} {ds' : List Decl} (same : ∀ d ∈ ds, d.SameSides (f d))
    (carried : CarriedAll true (ds.map fun d => (f d).stripUnless pinned) ds') :
    List.Forall₂ SameSides ds ds' := by
  have pairs := List.forall₂_map_left_iff.mp carried
  clear carried
  induction pairs with
  | nil => exact .nil
  | cons spaced _ ih =>
    obtain ⟨here, later⟩ := List.forall_mem_cons.mp same
    exact .cons ((here.carried (.stripUnless pinned _)).carried spaced) (ih later)

theorem barriersFrom_append (before : Nat) (as bs : List Decl) :
    barriersFrom before (as ++ bs) =
      barriersFrom before as ++ barriersFrom (before + as.length) bs := by
  induction as generalizing before with
  | nil => rfl
  | cons d as ih =>
    have shift : before + 1 + as.length = before + (as.length + 1) := by omega
    simp only [List.cons_append, barriersFrom, ih, List.length_cons, shift, List.append_assoc]

theorem barriersFrom_congr {as bs : List Decl} (h : List.Forall₂ Alike as bs) (before : Nat) :
    barriersFrom before bs = barriersFrom before as := by
  induction h generalizing before with
  | nil => rfl
  | cons alike _ ih =>
    rw [barriersFrom, barriersFrom, ih, Span.barriers_congr alike.leading,
      Span.barriers_congr alike.trailing]

theorem barriersFrom_eq_nil (h : ds.any hasGuardMarker = false) (before : Nat) :
    barriersFrom before ds = [] := by
  induction ds generalizing before with
  | nil => rfl
  | cons d ds ih =>
    simp only [List.any_cons, Bool.or_eq_false_iff, hasGuardMarker] at h
    rw [barriersFrom, Span.barriers_eq_nil h.1.1, Span.barriers_eq_nil h.1.2, ih h.2]
    rfl

theorem before_of_mem_barriersFrom (h : m ∈ barriersFrom before ds) :
    before ≤ m.before ∧ m.before ≤ before + ds.length := by
  induction ds generalizing before with
  | nil => cases h
  | cons d ds ih =>
    simp only [barriersFrom, List.mem_append] at h
    rw [List.length_cons]
    rcases h with (leading | trailing) | later
    · have := Span.before_of_mem_barriers leading
      omega
    · have := Span.before_of_mem_barriers trailing
      omega
    · have := ih later
      omega

theorem barriersFrom_sortUnless (pinned : Bool) (le : Decl → Decl → Bool)
    (free : pinned = false → ds.any hasGuardMarker = false) (before : Nat) :
    barriersFrom before (sortUnless pinned le ds) = barriersFrom before ds := by
  cases pinned with
  | true => rfl
  | false =>
    have sorted : (sortUnless false le ds).any hasGuardMarker = false := by
      rw [(sortUnless_perm false le ds).any_eq]
      exact free rfl
    rw [barriersFrom_eq_nil sorted, barriersFrom_eq_nil (free rfl)]

theorem any_of_mem_barriersFrom (h : m ∈ barriersFrom before ds) : ds.any hasGuardMarker := by
  by_contra none
  rw [barriersFrom_eq_nil (by simpa using none)] at h
  cases h

end Decl

theorem Decl.SameSides.of_body (alike : d.Alike d') {f : Block Decl → Block Decl}
    (block : d'.block = d.block.map f) (body : ∀ b, d.block = some b → b.SameSides (f b)) :
    d.SameSides d' := by
  cases own : d.block with
  | none => exact .leaf alike own (by rw [block, own]; rfl)
  | some b => exact .container alike own (by rw [block, own]; rfl) (body b own)

theorem Block.sameSides_refl (b : Block Decl) : b.SameSides b := by
  induction b using Block.induction with
  | step b ih =>
    exact .intro rfl (.refl _) (fun _ _ => .refl _) (List.forall₂_same.mpr fun d mem =>
      .of_body (.refl d) Option.map_id'.symm (ih d mem))

theorem Decl.sameSides_refl (d : Decl) : d.SameSides d :=
  .of_body (.refl d) Option.map_id'.symm fun b _ => b.sameSides_refl

theorem Block.membersGuarded_of_any (h : b.members.any Decl.hasGuardMarker) : b.membersGuarded := by
  obtain ⟨d, mem, marked⟩ := List.any_eq_true.mp h
  rw [Block.membersGuarded, Bool.or_eq_true, List.any_eq_true]
  exact .inl ⟨d, mem, by simp [marked]⟩

theorem take_perm {α : Type} {l l' : List α} {n : Nat} (perm : l'.Perm l)
    (h : l' = l ∨ n = 0 ∨ l.length ≤ n) : (l'.take n).Perm (l.take n) := by
  rcases h with rfl | rfl | long
  · exact .refl _
  · simp
  · rw [List.take_of_length_le long, List.take_of_length_le (perm.length_eq ▸ long)]
    exact perm

namespace Block

def arrangedDecls (roots : List String) (b : Block Decl) : List Decl :=
  sortUnless b.importsGuarded (Decl.importLE roots) b.imports ++ b.attributes ++
    sortUnless b.membersGuarded Decl.memberLE b.members

theorem arrangedDecls_perm (roots : List String) (b : Block Decl) :
    (b.arrangedDecls roots).Perm b.decls :=
  ((sortUnless_perm ..).append_right _).append (sortUnless_perm ..)

/-- Where a barrier can stand: a list that is sorted lies on one side of it. -/
theorem before_cases (h : m ∈ b.barriers) :
    (b.importsGuarded ∨ m.before = 0 ∨ b.imports.length ≤ m.before) ∧
      (b.membersGuarded ∨ m.before ≤ b.imports.length + b.attributes.length ∨
        b.decls.length ≤ m.before) := by
  simp only [barriers, decls, Decl.barriersFrom_append, List.mem_append] at h
  rcases h with (opening | (inImports | inAttributes) | inMembers) | closing
  · have := Span.before_of_mem_barriers opening
    exact ⟨.inr (.inl this), .inr (.inl (by omega))⟩
  · have bounds := Decl.before_of_mem_barriersFrom inImports
    exact ⟨.inl (Decl.any_of_mem_barriersFrom inImports), .inr (.inl (by omega))⟩
  · have bounds := Decl.before_of_mem_barriersFrom inAttributes
    exact ⟨.inr (.inr (by omega)), .inr (.inl (by omega))⟩
  · have bounds := Decl.before_of_mem_barriersFrom inMembers
    have guarded := membersGuarded_of_any (Decl.any_of_mem_barriersFrom inMembers)
    rw [List.length_append] at bounds
    exact ⟨.inr (.inr (by omega)), .inl guarded⟩
  · have position := Span.before_of_mem_barriers closing
    simp only [List.length_append] at position
    exact ⟨.inr (.inr (by omega)), .inr (.inr (by simp only [decls, List.length_append]; omega))⟩

theorem arrangedDecls_sides (roots : List String) (h : m ∈ b.barriers) :
    ((b.arrangedDecls roots).take m.before).Perm (b.decls.take m.before) := by
  obtain ⟨imports, members⟩ := before_cases h
  have importsPerm := sortUnless_perm b.importsGuarded (Decl.importLE roots) b.imports
  have membersPerm := sortUnless_perm b.membersGuarded Decl.memberLE b.members
  have pinned : ∀ (le : Decl → Decl → Bool) (l : List Decl), sortUnless true le l = l := by
    intro le l
    rfl
  simp only [arrangedDecls, decls, List.take_append, List.length_append, importsPerm.length_eq]
  refine ((take_perm importsPerm ?_).append_right _).append (take_perm membersPerm ?_)
  · rcases imports with guarded | none | all
    · exact .inl (by rw [guarded, pinned])
    · exact .inr (.inl none)
    · exact .inr (.inr all)
  · rcases members with guarded | none | all
    · exact .inl (by rw [guarded, pinned])
    · exact .inr (.inl (by omega))
    · simp only [decls, List.length_append] at all
      exact .inr (.inr (by omega))

theorem barriersFrom_arrangedDecls (roots : List String) (b : Block Decl) :
    Decl.barriersFrom 0 (b.arrangedDecls roots) = Decl.barriersFrom 0 b.decls := by
  have imports := Decl.barriersFrom_sortUnless b.importsGuarded (Decl.importLE roots)
    (fun free => free) 0
  have membersFree : b.membersGuarded = false → b.members.any Decl.hasGuardMarker = false := by
    intro free
    by_contra marked
    rw [membersGuarded_of_any (by simpa using marked)] at free
    cases free
  have members := Decl.barriersFrom_sortUnless b.membersGuarded Decl.memberLE membersFree
    (b.imports.length + b.attributes.length)
  have length := (sortUnless_perm b.importsGuarded (Decl.importLE roots) b.imports).length_eq
  simp only [arrangedDecls, decls, Decl.barriersFrom_append, List.length_append, Nat.zero_add,
    length, imports, members]

theorem matched_of_bodies (roots : List String) (ending : String) (b : Block Decl)
    (bodies : ∀ d ∈ b.members, Decl.SameSides d (d.tidyBody roots ending)) :
    List.Forall₂ Decl.SameSides (b.arrangedDecls roots)
      ((b.reorganize roots).normalize ending).decls := by
  rw [normalize_reorganize_sorted]
  obtain ⟨imports, attributes, members⟩ := space_carried ending { b with
    openTrailing := Span.stripUnless b.membersGuarded b.openTrailing
    imports := (sortUnless b.importsGuarded (Decl.importLE roots) b.imports).map
      (Decl.stripUnless b.membersGuarded)
    attributes := b.attributes.map (Decl.stripUnless b.membersGuarded)
    members := (sortUnless b.membersGuarded Decl.memberLE b.members).map fun d =>
      (d.tidyBody roots ending).stripUnless b.membersGuarded
    closeLeading := Span.stripUnless b.membersGuarded b.closeLeading }
  refine List.rel_append (List.rel_append ?_ ?_) ?_
  · exact Decl.SameSides.spaced (f := id) (fun d _ => d.sameSides_refl) imports
  · exact Decl.SameSides.spaced (f := id) (fun d _ => d.sameSides_refl) attributes
  · refine Decl.SameSides.spaced (fun d mem => ?_) members
    exact bodies d ((sortUnless_perm ..).mem_iff.mp mem)

theorem sameSides_of_bodies (roots : List String) (ending : String) (b : Block Decl)
    (bodies : ∀ d ∈ b.members, Decl.SameSides d (d.tidyBody roots ending)) :
    SameSides b ((b.reorganize roots).normalize ending) := by
  have matched := matched_of_bodies roots ending b bodies
  have spans := (b.tidied roots ending)
  refine .intro ?_ (arrangedDecls_perm roots b) (fun m => arrangedDecls_sides roots) matched
  cases spans with
  | intro _ _ openTrailing closeLeading =>
    have alike := matched.imp fun _ _ same => same.alike
    have length := matched.length_eq.symm.trans (arrangedDecls_perm roots b).length_eq
    rw [barriers, barriers, Decl.barriersFrom_congr alike, barriersFrom_arrangedDecls, length,
      Span.barriers_congr openTrailing.unmarked, Span.barriers_congr closeLeading.unmarked]

end Block

theorem Block.sameSides (roots : List String) (ending : String) (b : Block Decl) :
    b.SameSides ((b.reorganize roots).normalize ending) := by
  induction b using Block.induction with
  | step b ih =>
    refine sameSides_of_bodies roots ending b fun d mem =>
      .of_body ?_ ?_ (ih d (List.mem_append_right _ mem))
    · simp only [Decl.tidyBody, Decl.mapBlocks_eq]
      exact ⟨rfl, rfl, rfl, rfl, rfl, rfl, rfl⟩
    · simp only [Decl.tidyBody, Decl.mapBlocks_eq, Option.map_map]
      rfl

/-- Tidying a tree moves no declaration over a directive of its own block, at any depth, and
changes no sequence of such directives. -/
theorem SourceFile.normalize_reorganize_sameSides (roots : List String) (ending : String)
    (f : SourceFile) : f.root.SameSides ((f.reorganize roots).normalize ending).root :=
  f.root.sameSides roots ending

end CSharpTidy
