import CSharpTidy.Order.Arrange
import Mathlib.Data.List.Nodup
import Mathlib.Data.List.Perm.Basic
import Mathlib.Order.Compare

/- Sorting the members of a block, category by category. A list in which equal elements keep their
   order is the only one of its kind, so sorting each category on its own and putting the lists
   behind each other is the same as sorting all members by the category first. -/
namespace CSharpTidy

variable {α : Type}

theorem filter_mergeSort {le : α → α → Bool} (trans : ∀ a b c, le a b → le b c → le a c)
    (total : ∀ a b, le a b || le b a) {p : α → Bool} (together : ∀ a b, p a → p b → le a b)
    (l : List α) : (l.mergeSort le).filter p = l.filter p := by
  have inOrder : (l.filter p).Pairwise fun a b => le a b :=
    List.pairwise_of_forall_mem_list fun a mem b mem' =>
      together a b (List.mem_filter.mp mem).2 (List.mem_filter.mp mem').2
  have inside := (List.sublist_mergeSort trans total inOrder List.filter_sublist).filter p
  simp only [List.filter_filter, Bool.and_self] at inside
  refine (inside.eq_of_length ?_).symm
  exact ((List.mergeSort_perm l le).filter p).length_eq.symm

section Sorting

variable {α : Type} {cmp : α → α → Ordering} [Std.TransCmp cmp] {le : α → α → Bool}

theorem le_trans_of_compared (compared : ∀ a b, le a b = (cmp a b).isLE) (a b c : α)
    (h : le a b) (h' : le b c) : le a c := by
  rw [compared] at *
  exact Std.TransCmp.isLE_trans h h'

theorem le_total_of_compared (compared : ∀ a b, le a b = (cmp a b).isLE) (a b : α) :
    le a b || le b a := by
  have swapped : cmp b a = (cmp a b).swap := Std.OrientedCmp.eq_swap
  rw [compared, compared, swapped]
  cases cmp a b <;> rfl

theorem pairwise_mergeSort_of_compared (compared : ∀ a b, le a b = (cmp a b).isLE) (l : List α) :
    (l.mergeSort le).Pairwise fun a b => le a b :=
  List.pairwise_mergeSort (le_trans_of_compared compared) (le_total_of_compared compared) l

end Sorting

/-- `new` has the elements of `old`, none before a smaller one. Those that tie with any one
element come in the same order in both. -/
structure StableSort {α : Type} (cmp : α → α → Ordering) (old new : List α) : Prop where
  perm : new.Perm old
  ordered : new.Pairwise fun a b => cmp a b ≠ .gt
  ties : ∀ a, new.filter (fun b => cmp a b == .eq) = old.filter (fun b => cmp a b == .eq)

namespace StableSort

variable {α : Type} {cmp : α → α → Ordering} {old new other : List α}

theorem not_gt_iff {a b : α} : cmp a b ≠ .gt ↔ (cmp a b).isLE := by
  cases cmp a b <;> simp

theorem head_least [Std.TransCmp cmp] {a b : α}
    (ordered : (a :: new).Pairwise fun a b => cmp a b ≠ .gt) (mem : b ∈ a :: new) :
    cmp a b ≠ .gt := by
  rcases List.mem_cons.mp mem with same | later
  · have self : cmp a a = .eq := Std.ReflCmp.compare_self
    simp [same, self]
  · exact (List.pairwise_cons.mp ordered).1 b later

theorem head_eq [Std.TransCmp cmp] {a b : α}
    (first : (a :: new).Pairwise fun a b => cmp a b ≠ .gt)
    (second : (b :: other).Pairwise fun a b => cmp a b ≠ .gt)
    (mem : b ∈ a :: new) (mem' : a ∈ b :: other)
    (ties : (a :: new).filter (fun c => cmp a c == .eq) =
      (b :: other).filter (fun c => cmp a c == .eq)) : a = b := by
  have below : cmp a b ≠ .gt := head_least first mem
  have above : cmp b a ≠ .gt := head_least second mem'
  have swapped : cmp b a = (cmp a b).swap := Std.OrientedCmp.eq_swap
  have tied : cmp a b = .eq := by
    rw [swapped] at above
    revert below above
    cases cmp a b <;> simp
  have self : cmp a a = .eq := Std.ReflCmp.compare_self
  simp only [List.filter_cons, tied, self, beq_self_eq_true, if_true] at ties
  exact (List.cons.inj ties).1

theorem ties_tail [Std.TransCmp cmp] {a : α}
    (ties : ∀ c, (a :: new).filter (fun d => cmp c d == .eq) =
      (a :: other).filter (fun d => cmp c d == .eq)) (c : α) :
    new.filter (fun d => cmp c d == .eq) = other.filter (fun d => cmp c d == .eq) := by
  have both := ties c
  simp only [List.filter_cons] at both
  split at both
  · exact (List.cons.inj both).2
  · exact both

/-- A stable order is unique: the lists have the same head, and so on down. -/
theorem eq_of_ties [Std.TransCmp cmp]
    (first : new.Pairwise fun a b => cmp a b ≠ .gt)
    (second : other.Pairwise fun a b => cmp a b ≠ .gt) (perm : new.Perm other)
    (ties : ∀ a, new.filter (fun b => cmp a b == .eq) = other.filter (fun b => cmp a b == .eq)) :
    new = other := by
  induction new generalizing other with
  | nil => exact perm.nil_eq
  | cons a new ih =>
    cases other with
    | nil => exact perm.eq_nil
    | cons b other =>
      have same : a = b := head_eq first second (perm.mem_iff.mpr List.mem_cons_self)
        (perm.mem_iff.mp List.mem_cons_self) (ties a)
      subst same
      rw [ih (List.pairwise_cons.mp first).2 (List.pairwise_cons.mp second).2 perm.cons_inv
        (ties_tail ties)]

theorem unique [Std.TransCmp cmp] (first : StableSort cmp old new)
    (second : StableSort cmp old other) : new = other := by
  apply eq_of_ties first.ordered second.ordered (first.perm.trans second.perm.symm)
  intro a
  rw [first.ties, second.ties]

theorem mergeSort [Std.TransCmp cmp] {le : α → α → Bool}
    (compared : ∀ a b, le a b = (cmp a b).isLE) (l : List α) :
    StableSort cmp l (l.mergeSort le) where
  perm := List.mergeSort_perm l le
  ordered := by
    apply (pairwise_mergeSort_of_compared compared l).imp
    intro a b below
    rw [compared] at below
    exact not_gt_iff.mpr below
  ties a := by
    apply filter_mergeSort (le_trans_of_compared compared) (le_total_of_compared compared)
    intro b c tied tied'
    have between : cmp b c = .eq :=
      Std.TransCmp.eq_trans (Std.OrientedCmp.eq_comm.mp (beq_iff_eq.mp tied)) (beq_iff_eq.mp tied')
    rw [compared, between]
    rfl

theorem eq_mergeSort_iff [Std.TransCmp cmp] {le : α → α → Bool}
    (compared : ∀ a b, le a b = (cmp a b).isLE) {l l' : List α} :
    l' = l.mergeSort le ↔ StableSort cmp l l' := by
  constructor
  · intro sorted
    rw [sorted]
    exact mergeSort compared l
  · intro sorted
    exact sorted.unique (mergeSort compared l)

variable {κ : Type}

theorem flatMap_filter_perm [DecidableEq κ] (key : α → κ) {keys : List κ} (nodup : keys.Nodup)
    (l : List α) :
    (keys.flatMap fun k => l.filter fun a => key a == k).Perm (l.filter fun a => keys.contains (key a)) := by
  induction keys with
  | nil => simp
  | cons k keys ih =>
    obtain ⟨fresh, nodup⟩ := List.nodup_cons.mp nodup
    have here : (l.filter fun a => (k :: keys).contains (key a)).filter (fun a => key a == k) =
        l.filter fun a => key a == k := by
      rw [List.filter_filter]
      apply List.filter_congr
      intro a _
      by_cases same : key a = k <;> simp [same]
    have later : (l.filter fun a => (k :: keys).contains (key a)).filter (fun a => !(key a == k)) =
        l.filter fun a => keys.contains (key a) := by
      rw [List.filter_filter]
      apply List.filter_congr
      intro a _
      by_cases same : key a = k <;> simp [same, fresh]
    rw [List.flatMap_cons]
    refine ((ih nodup).append_left _).trans ?_
    rw [← here, ← later]
    exact List.filter_append_perm _ _

theorem flatMap_filter_of_key [DecidableEq κ] {key : α → κ} {keys : List κ} (nodup : keys.Nodup)
    {k : κ} (known : k ∈ keys) {l : List α} (one : ∀ a ∈ l, key a = k) :
    (keys.flatMap fun k => l.filter fun a => key a == k) = l := by
  obtain ⟨front, back, rfl⟩ := List.append_of_mem known
  have fresh : k ∉ front ++ back := (List.nodup_cons.mp (List.nodup_middle.mp nodup)).1
  have others : ∀ k' ∈ front ++ back, (l.filter fun a => key a == k') = [] := by
    intro k' mem
    apply List.filter_eq_nil_iff.mpr
    intro a inside
    rw [one a inside, beq_iff_eq]
    exact fun same => fresh (same ▸ mem)
  have all : (l.filter fun a => key a == k) = l := by
    apply List.filter_eq_self.mpr
    intro a inside
    rw [one a inside, beq_self_eq_true]
  rw [List.flatMap_append, List.flatMap_cons, all,
    List.flatMap_eq_nil_iff.mpr fun k' mem => others k' (List.mem_append_left _ mem),
    List.flatMap_eq_nil_iff.mpr fun k' mem => others k' (List.mem_append_right _ mem)]
  simp

/-- The lists of the keys in turn, each sorted, are sorted if the keys decide first. -/
theorem flatMap [DecidableEq κ] {key : α → κ} {keys : List κ} {sorted : κ → List α}
    (nodup : keys.Nodup) (known : ∀ a, key a ∈ keys)
    (between : keys.Pairwise fun k k' => ∀ a b, key a = k → key b = k' → cmp a b = .lt)
    (tied : ∀ a b, cmp a b = .eq → key b = key a)
    (each : ∀ k, StableSort cmp (old.filter fun a => key a == k) (sorted k)) :
    StableSort cmp old (keys.flatMap sorted) where
  perm := by
    have lists := flatMap_filter_perm key nodup old
    rw [List.filter_eq_self.mpr fun a _ => List.contains_iff_mem.mpr (known a)] at lists
    exact (List.Perm.flatMap_left keys fun k _ => (each k).perm).trans lists
  ordered := by
    have keyed : ∀ k, ∀ a ∈ sorted k, key a = k := by
      intro k a mem
      exact beq_iff_eq.mp (List.mem_filter.mp ((each k).perm.mem_iff.mp mem)).2
    rw [List.pairwise_flatMap]
    refine ⟨fun k _ => (each k).ordered, between.imp ?_⟩
    intro k k' below a mem b mem'
    rw [below a b (keyed k a mem) (keyed k' b mem')]
    decide
  ties a := by
    have one : ∀ b ∈ old.filter (fun b => cmp a b == .eq), key b = key a := by
      intro b mem
      exact tied a b (beq_iff_eq.mp (List.mem_filter.mp mem).2)
    rw [List.filter_flatMap]
    simp only [(each _).ties, List.filter_comm]
    exact flatMap_filter_of_key nodup (known a) one

end StableSort

theorem transCmp_of_eq {β : Type} (cmp : β → β → Ordering) [Std.TransCmp cmp]
    {cmp' : α → α → Ordering} (f : α → β) (same : ∀ a b, cmp' a b = cmp (f a) (f b)) :
    Std.TransCmp cmp' where
  eq_swap := by
    intro a b
    rw [same, same]
    exact Std.OrientedCmp.eq_swap
  isLE_trans := by
    intro a b c
    rw [same, same, same]
    exact Std.TransCmp.isLE_trans

theorem Category.index_injective {a b : Category} (h : a.index = b.index) : a = b := by
  cases a <;> cases b <;> first | rfl | cases h

namespace Decl

def sortRank (d : Decl) : Nat :=
  match d.category with
  | .fields | .properties | .constructors | .methods | .enums => d.visibility.rank
  | .namespaces | .interfaces | .classes | .others => 0

def sortName (d : Decl) : String :=
  match d.category with
  | .fields | .properties | .methods => d.key.name
  | _ => ""

def sortTypeParams (d : Decl) : Nat :=
  match d.category with
  | .methods => d.key.typeParams
  | _ => 0

def sortParams (d : Decl) : Nat :=
  match d.category with
  | .constructors | .methods => d.key.params
  | _ => 0

def memberOrder : Decl → Decl → Ordering :=
  compareLex (compareOn fun d => d.category.index) <|
    compareLex (compareOn sortRank) <| compareLex (compareOn sortName) <|
      compareLex (compareOn sortTypeParams) (compareOn sortParams)

instance : Std.TransCmp memberOrder :=
  inferInstanceAs (Std.TransCmp (compareLex _ (compareLex _ (compareLex _ (compareLex _ _)))))

def comparePolicy (a b : Decl) : Ordering :=
  (compare a.category.index b.category.index).then (compareMember a b)

theorem comparePolicy_eq (a b : Decl) : comparePolicy a b = memberOrder a b := by
  unfold comparePolicy memberOrder compareLex
  cases h : compare a.category.index b.category.index with
  | lt => simp [compareOn, h]
  | gt => simp [compareOn, h]
  | eq =>
    have same := Category.index_injective (Nat.compare_eq_eq.mp h)
    simp only [compareOn, compareMember, sortRank, sortName, sortTypeParams, sortParams, ← same,
      compareVisibility, compareName, compareParams, compareTypeParams]
    cases a.category <;> simp

def memberLE (a b : Decl) : Bool :=
  (comparePolicy a b).isLE

theorem memberLE_isLE (a b : Decl) : memberLE a b = (comparePolicy a b).isLE := rfl

theorem memberLE_eq (a b : Decl) : memberLE a b = (memberOrder a b).isLE := by
  rw [memberLE_isLE, comparePolicy_eq]

instance transCmp_comparePolicy : Std.TransCmp comparePolicy :=
  transCmp_of_eq memberOrder id comparePolicy_eq

variable {a b : Decl}

/-- Inside of a category the policy has nothing but the comparison of members left. -/
theorem comparePolicy_of_category (same : a.category = b.category) :
    comparePolicy a b = compareMember a b := by
  rw [comparePolicy, same]
  simp

theorem category_eq_of_tied (tied : comparePolicy a b = .eq) : b.category = a.category := by
  rw [comparePolicy, Ordering.then_eq_eq] at tied
  exact (Category.index_injective (Nat.compare_eq_eq.mp tied.1)).symm

theorem buckets_eq (members : List Decl) :
    buckets members = Category.all.map fun c => members.filter fun d => d.category == c := by
  induction members with
  | nil => rfl
  | cons d members ih =>
    rw [buckets, List.foldr_cons, ← buckets, ih]
    simp only [Category.all, List.map_cons, List.map_nil, List.filter_cons]
    cases d.category <;> rfl

theorem stableSort_bucket (c : Category) (members : List Decl) :
    StableSort comparePolicy (members.filter fun d => d.category == c)
      ((members.filter fun d => d.category == c).mergeSort fun a b => (compareMember a b).isLE) := by
  have alike : ((members.filter fun d => d.category == c).mergeSort fun a b =>
      (compareMember a b).isLE) = (members.filter fun d => d.category == c).mergeSort memberLE := by
    have mapped := List.map_mergeSort (f := id) (r := fun a b => (compareMember a b).isLE)
      (s := memberLE) (l := members.filter fun d => d.category == c) ?_
    · simpa using mapped
    · intro a mem b mem'
      have left := beq_iff_eq.mp (List.mem_filter.mp mem).2
      have right := beq_iff_eq.mp (List.mem_filter.mp mem').2
      rw [id, id, memberLE, comparePolicy_of_category (left.trans right.symm)]
  rw [alike]
  exact StableSort.mergeSort memberLE_isLE _

theorem stableSort_sortByCategory (members : List Decl) :
    StableSort comparePolicy members (sortByCategory members) := by
  rw [sortByCategory, buckets_eq, List.map_map, ← List.flatMap_def]
  refine StableSort.flatMap (by decide) ?_ ?_ (fun a b => category_eq_of_tied)
    fun c => stableSort_bucket c members
  · intro d
    cases d.category <;> decide
  · have indexes : Category.all.Pairwise fun c c' => c.index < c'.index := by decide
    apply indexes.imp
    rintro c c' below a b rfl rfl
    rw [comparePolicy, Nat.compare_eq_lt.mpr below]
    rfl

/-- Sorting the categories one by one sorts the members by their categories first. -/
theorem sortByCategory_eq (members : List Decl) :
    sortByCategory members = members.mergeSort memberLE :=
  (StableSort.eq_mergeSort_iff memberLE_isLE).mpr (stableSort_sortByCategory members)

end Decl

end CSharpTidy
