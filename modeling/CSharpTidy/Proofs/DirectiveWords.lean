import CSharpTidy.Proofs.SpanFlow

/- Sequences of directives. Regions are nested if each end closes a region that is open and none
   stays open. A declaration can be moved if it opens the conditionals that it closes and closes no
   region that it did not open. -/
namespace CSharpTidy

namespace DirectiveKind

/-- How many regions are open behind the directive, unless it closes one that was not open. -/
def regions : DirectiveKind → Nat → Option Nat
  | .region, depth => some (depth + 1)
  | .endRegion, 0 => none
  | .endRegion, depth + 1 => some depth
  | _, depth => some depth

/-- How many conditionals are open behind the directive, unless it belongs to none. -/
def conditionals : DirectiveKind → Nat → Option Nat
  | .ifTest, depth => some (depth + 1)
  | .elifTest, 0 | .elseArm, 0 | .endIf, 0 => none
  | .endIf, depth + 1 => some depth
  | _, depth => some depth

end DirectiveKind

def regionDepth (depth : Nat) (ks : List DirectiveKind) : Option Nat :=
  ks.foldlM (fun depth kind => kind.regions depth) depth

def conditionalDepth (depth : Nat) (ks : List DirectiveKind) : Option Nat :=
  ks.foldlM (fun depth kind => kind.conditionals depth) depth

def RegionsNested (ks : List DirectiveKind) : Prop :=
  regionDepth 0 ks = some 0

instance (ks : List DirectiveKind) : Decidable (RegionsNested ks) :=
  inferInstanceAs (Decidable (_ = _))

/-- All conditionals are opened and closed here, and no symbol is changed. -/
def selfContained (ks : List DirectiveKind) : Bool :=
  conditionalDepth 0 ks == some 0 && !ks.any DirectiveKind.changesSymbols

/-- A directive of a source, and whether tidying keeps it. -/
structure Marker where
  kind : DirectiveKind
  kept : Bool
  deriving DecidableEq, Repr

variable {ks : List DirectiveKind} {α : Type}

namespace Marker

def left (ms : List Marker) : List DirectiveKind :=
  (ms.filter Marker.kept).map Marker.kind

@[simp] theorem left_append (ms ns : List Marker) : left (ms ++ ns) = left ms ++ left ns := by
  simp [left]

theorem left_flatMap (f : α → List Marker) (items : List α) :
    left (items.flatMap f) = items.flatMap fun a => left (f a) := by
  induction items with
  | nil => rfl
  | cons a items ih => rw [List.flatMap_cons, left_append, ih, List.flatMap_cons]

/-- The two markers of each region are both kept or both dropped; `opened` says which of the open
regions are kept. -/
def paired (opened : List Bool) : List Marker → Bool
  | [] => true
  | ⟨.region, kept⟩ :: ms => paired (kept :: opened) ms
  | ⟨.endRegion, kept⟩ :: ms => opened.head? == some kept && paired opened.tail ms
  | _ :: ms => paired opened ms

/-- A declaration with these directives may change places with others. -/
def movable (ms : List Marker) : Bool :=
  selfContained (ms.map Marker.kind) && (regionDepth 0 (left ms)).isSome

end Marker

@[simp] theorem regionDepth_nil (depth : Nat) : regionDepth depth [] = some depth := rfl

theorem regionDepth_cons (depth : Nat) (kind : DirectiveKind) (ks : List DirectiveKind) :
    regionDepth depth (kind :: ks) = (kind.regions depth).bind (regionDepth · ks) := by
  simp only [regionDepth, List.foldlM_cons]
  rfl

theorem regionDepth_append (depth : Nat) (ks ks' : List DirectiveKind) :
    regionDepth depth (ks ++ ks') = (regionDepth depth ks).bind (regionDepth · ks') := by
  simp only [regionDepth, List.foldlM_append]
  rfl

theorem DirectiveKind.conditionals_of_plain {kind : DirectiveKind} (h : kind.isConditional = false)
    (depth : Nat) : kind.conditionals depth = some depth := by
  cases kind <;> first | rfl | cases h

theorem conditionalDepth_cons (depth : Nat) (kind : DirectiveKind) (ks : List DirectiveKind) :
    conditionalDepth depth (kind :: ks) =
      (kind.conditionals depth).bind (conditionalDepth · ks) := by
  simp only [conditionalDepth, List.foldlM_cons]
  rfl

/-- Wherever the first word stands, the second may stand in its place. -/
def Replaces (ks ks' : List DirectiveKind) : Prop :=
  ∀ depth depth', regionDepth depth ks = some depth' → regionDepth depth ks' = some depth'

namespace Replaces

variable {ks ks' ks'' ls ls' : List DirectiveKind}

theorem refl (ks : List DirectiveKind) : Replaces ks ks :=
  fun _ _ h => h

theorem trans (h : Replaces ks ks') (h' : Replaces ks' ks'') : Replaces ks ks'' :=
  fun depth depth' same => h' depth depth' (h depth depth' same)

theorem append (h : Replaces ks ks') (h' : Replaces ls ls') : Replaces (ks ++ ls) (ks' ++ ls') := by
  intro depth depth' same
  rw [regionDepth_append, Option.bind_eq_some_iff] at same ⊢
  obtain ⟨between, front, back⟩ := same
  exact ⟨between, h _ _ front, h' _ _ back⟩

theorem flatMap {f g : α → List DirectiveKind} {items : List α}
    (h : ∀ a ∈ items, Replaces (f a) (g a)) : Replaces (items.flatMap f) (items.flatMap g) := by
  induction items with
  | nil => exact refl _
  | cons a items ih =>
    rw [List.forall_mem_cons] at h
    exact h.1.append (ih h.2)

end Replaces

/-- No region is closed that was not opened here. -/
def Rises (ks : List DirectiveKind) : Prop :=
  ∃ rise, ∀ depth, regionDepth depth ks = some (depth + rise)

theorem regionDepth_raise {depth depth' : Nat} (h : regionDepth depth ks = some depth')
    (more : Nat) :
    regionDepth (depth + more) ks = some (depth' + more) := by
  induction ks generalizing depth with
  | nil => simp_all
  | cons kind ks ih =>
    rw [regionDepth_cons, Option.bind_eq_some_iff] at h ⊢
    obtain ⟨between, first, rest⟩ := h
    refine ⟨between + more, ?_, ih rest⟩
    cases kind with
    | region =>
      simp only [DirectiveKind.regions, Option.some.injEq] at first ⊢
      omega
    | endRegion =>
      cases depth with
      | zero => cases first
      | succ depth =>
        simp only [DirectiveKind.regions, Option.some.injEq] at first
        rw [Nat.succ_add, DirectiveKind.regions, first]
    | _ => simpa [DirectiveKind.regions] using first

namespace Rises

variable {ks ks' : List DirectiveKind}

theorem of_isSome (h : (regionDepth 0 ks).isSome) : Rises ks := by
  obtain ⟨rise, found⟩ := Option.isSome_iff_exists.mp h
  refine ⟨rise, fun depth => ?_⟩
  have := regionDepth_raise found depth
  rwa [Nat.zero_add, Nat.add_comm] at this

theorem replaced (h : Rises ks) (replaces : Replaces ks ks') : Rises ks' := by
  obtain ⟨rise, rises⟩ := h
  exact ⟨rise, fun depth => replaces _ _ (rises depth)⟩

theorem swap (h : Rises ks) (h' : Rises ks') : Replaces (ks ++ ks') (ks' ++ ks) := by
  obtain ⟨rise, rises⟩ := h
  obtain ⟨rise', rises'⟩ := h'
  intro depth depth' same
  simp only [regionDepth_append, rises, rises', Option.bind_some] at same ⊢
  rw [← same, Nat.add_right_comm]

theorem perm {f : α → List DirectiveKind} {items items' : List α} (moved : items.Perm items')
    (h : ∀ a ∈ items, Rises (f a)) : Replaces (items.flatMap f) (items'.flatMap f) := by
  induction moved with
  | nil => exact .refl _
  | cons a _ ih =>
    rw [List.forall_mem_cons] at h
    exact (Replaces.refl _).append (ih h.2)
  | swap a b items =>
    rw [List.forall_mem_cons, List.forall_mem_cons] at h
    simp only [List.flatMap_cons, ← List.append_assoc]
    exact (h.1.swap h.2.1).append (.refl _)
  | trans moved _ ih ih' => exact (ih h).trans (ih' fun a mem => h a (moved.mem_iff.mpr mem))

end Rises

namespace Marker

variable {ms : List Marker}

theorem left_nested_of_paired {opened : List Bool} (pairs : paired opened ms)
    (nested : regionDepth opened.length (ms.map kind) = some 0) :
    regionDepth (opened.filter id).length (left ms) = some 0 := by
  induction ms generalizing opened with
  | nil =>
    obtain rfl : opened = [] := by simpa using nested
    rfl
  | cons m ms ih =>
    obtain ⟨kind, kept⟩ := m
    rw [List.map_cons, regionDepth_cons, Option.bind_eq_some_iff] at nested
    obtain ⟨between, first, rest⟩ := nested
    have others : ∀ (other : DirectiveKind.regions kind = some), paired opened ms →
        regionDepth (opened.filter id).length (left (⟨kind, kept⟩ :: ms)) = some 0 := by
      intro other more
      obtain rfl : opened.length = between := by simpa [other] using first
      have later := ih more rest
      cases kept with
      | false => simpa [left] using later
      | true => simpa [left, regionDepth_cons, other] using later
    cases kind with
    | region =>
      obtain rfl : opened.length + 1 = between := by simpa [DirectiveKind.regions] using first
      have inner : paired (kept :: opened) ms := pairs
      have later := ih inner rest
      cases kept with
      | false => simpa [left] using later
      | true => simpa [left, regionDepth_cons, DirectiveKind.regions] using later
    | endRegion =>
      simp only [paired, Bool.and_eq_true, beq_iff_eq] at pairs
      obtain ⟨opened, rfl⟩ := List.head?_eq_some_iff.mp pairs.1
      obtain rfl : opened.length = between := by simpa [DirectiveKind.regions] using first
      have later := ih pairs.2 rest
      cases kept with
      | false => simpa [left] using later
      | true => simpa [left, regionDepth_cons, DirectiveKind.regions] using later
    | _ => exact others rfl pairs

theorem rises_of_movable (h : movable ms) : Rises (left ms) :=
  .of_isSome (Bool.and_eq_true_iff.mp h).2

end Marker

namespace Conditional

inductive Through : Conditional → List DirectiveKind → Conditional → Prop
  | nil (c : Conditional) : Through c [] c
  | cons {c c₁ c' : Conditional} {kind : DirectiveKind} {line : List Char}
      {ks : List DirectiveKind} (applied : c.apply kind line = .ok c₁) (more : Through c₁ ks c') :
      Through c (kind :: ks) c'

namespace Through

variable {c c' c'' : Conditional} {ks ks' : List DirectiveKind}

theorem append (h : Through c ks c') (more : Through c' ks' c'') : Through c (ks ++ ks') c'' := by
  induction h with
  | nil => exact more
  | cons applied _ ih => exact .cons applied (ih more)

/-- Conditionals that are opened on the way stand on those that were open before, which stay. -/
theorem outer_stays (h : Through c ks c') (symbols : ∀ kind ∈ ks, kind.changesSymbols = false)
    {inner outer : List Branch} (inside : c.branches = inner ++ outer) {depth : Nat}
    (deep : conditionalDepth inner.length ks = some depth) :
    c'.symbols = c.symbols ∧ ∃ inner', c'.branches = inner' ++ outer ∧ inner'.length = depth := by
  induction h generalizing inner with
  | nil => exact ⟨rfl, inner, inside, by simpa [conditionalDepth] using deep⟩
  | @cons c c₁ c' kind line ks applied more ih =>
    rw [List.forall_mem_cons] at symbols
    rw [conditionalDepth_cons, Option.bind_eq_some_iff] at deep
    obtain ⟨between, first, rest⟩ := deep
    have on : ∀ branches : List Branch, c₁ = { c with branches := branches ++ outer } →
        branches.length = between →
        c'.symbols = c.symbols ∧
          ∃ inner', c'.branches = inner' ++ outer ∧ inner'.length = depth := by
      rintro branches rfl rfl
      exact ih symbols.2 rfl rest
    cases apply_effect applied with
    | @opened value live =>
      exact on (⟨c.isActive, value, value, false⟩ :: inner) (by simp [inside])
        (by simpa [DirectiveKind.conditionals] using first)
    | @nextArm branch _ value top =>
      cases inner with
      | nil => cases first
      | cons _ inner =>
        obtain ⟨rfl, rfl⟩ := List.cons.inj (top.symm.trans inside)
        exact on ({ branch with active := value, taken := branch.taken || value } :: inner)
          rfl (by simpa [DirectiveKind.conditionals] using first)
    | @lastArm branch _ top =>
      cases inner with
      | nil => cases first
      | cons _ inner =>
        obtain ⟨rfl, rfl⟩ := List.cons.inj (top.symm.trans inside)
        exact on (⟨branch.parentActive, true, branch.parentActive && !branch.taken,
          true⟩ :: inner) rfl (by simpa [DirectiveKind.conditionals] using first)
    | @closed branch _ top =>
      cases inner with
      | nil => cases first
      | cons _ inner =>
        obtain ⟨rfl, rfl⟩ := List.cons.inj (top.symm.trans inside)
        exact on inner rfl (by simpa [DirectiveKind.conditionals] using first)
    | defined => cases symbols.1
    | undefined => cases symbols.1
    | ignored plain =>
      refine on inner (by rw [← inside]) ?_
      rw [DirectiveKind.conditionals_of_plain plain] at first
      exact Option.some.inj first

theorem eq_of_selfContained (h : Through c ks c') (contained : selfContained ks) : c' = c := by
  simp only [selfContained, Bool.and_eq_true, beq_iff_eq, Bool.not_eq_true',
    List.any_eq_false] at contained
  have inside : c.branches = [] ++ c.branches := rfl
  obtain ⟨symbols, inner, branches, empty⟩ :=
    h.outer_stays (fun kind mem => by simpa using contained.2 kind mem) inside contained.1
  obtain rfl := List.eq_nil_of_length_eq_zero empty
  cases c
  cases c'
  simp_all

end Through

end Conditional

theorem Span.Flow.through {next fresh : Bool} {c c' : Conditional} {span : Span}
    (h : Span.Flow next fresh c span ks c') : c.Through ks c' := by
  induction h with
  | nil => exact .nil _
  | space _ _ _ ih => exact ih
  | lineEnd _ _ _ ih => exact ih
  | comment _ _ _ _ ih => exact ih
  | directive _ _ _ _ applied _ ih => exact .cons applied ih
  | disabled _ _ _ _ _ ih => exact ih

theorem Trace.through {r r' : Reader} {as : List Atom} {s s' : List Char} (h : Trace r as s r' s') :
    r.conditional.Through (as.filterMap Atom.directive?) r'.conditional := by
  induction h with
  | nil => exact .nil _
  | @cons r r₁ r' a as s s₁ s' first whole more ih =>
    cases first with
    | space kind | lineEnd kind => simpa [Atom.directive?, Trivia.directive?, kind] using ih
    | comment active found =>
      obtain ⟨remark, -⟩ := Trivia.isRemark_of_found found
      simpa [Atom.directive?, remark.solid] using ih
    | @directive t body conditional kind hash unbroken ends opens counts applied =>
      have found : Atom.directive? (.trivia t) = some (DirectiveLine.kind t.text.toList) := by
        simp [Atom.directive?, Trivia.directive?, kind]
      rw [List.filterMap_cons_some found]
      exact .cons applied ih
    | disabled kind => simpa [Atom.directive?, Trivia.directive?, kind] using ih
    | token => exact ih

end CSharpTidy
