import CSharpTidy.Order.Import
import Mathlib.Data.List.Forall2

/- Standard namespaces, segment by segment. The test cuts a path behind as many bytes as the root has
   and looks at one character behind the cut; it holds exactly if the segments of the root are the
   first segments of the path, up to the case of ASCII letters. -/
namespace CSharpTidy

namespace StandardPath

/-- The same character, or the two cases of one ASCII letter. -/
def SameLetter (a b : Char) : Prop :=
  a = b ∨ ∃ i < 26, (a.toNat = 65 + i ∧ b.toNat = 97 + i) ∨ (a.toNat = 97 + i ∧ b.toNat = 65 + i)

def SameWord (a b : List Char) : Prop :=
  List.Forall₂ SameLetter a b

def SegmentsBelow (root path : List (List Char)) : Prop :=
  ∃ front, front <+: path ∧ List.Forall₂ SameWord root front

theorem toNat_toLower (c : Char) :
    c.toLower.toNat = if 65 ≤ c.toNat ∧ c.toNat ≤ 90 then c.toNat + 32 else c.toNat := by
  have upper : (c.val ≥ 'A'.val ∧ c.val ≤ 'Z'.val) ↔ 65 ≤ c.toNat ∧ c.toNat ≤ 90 := Iff.rfl
  unfold Char.toLower
  split
  · rename_i inside
    rw [if_pos (upper.mp inside)]
    have bound := (upper.mp inside).2
    change (c.val + 32).toNat = c.val.toNat + 32
    rw [UInt32.toNat_add]
    exact Nat.mod_eq_of_lt (show c.toNat + 32 < 4294967296 by omega)
  · rename_i outside
    rw [if_neg (mt upper.mpr outside)]

variable {as bs : List (List Char)} {a : List Char} {b c : Char}

theorem toLower_eq_iff {a : Char} : a.toLower = b.toLower ↔ SameLetter a b := by
  rw [← Char.toNat_inj, toNat_toLower, toNat_toLower, SameLetter, ← Char.toNat_inj]
  constructor
  · intro same
    by_cases equal : a.toNat = b.toNat
    · exact .inl equal
    · split at same <;> split at same
      · omega
      · exact .inr ⟨a.toNat - 65, by omega, .inl (by omega)⟩
      · exact .inr ⟨b.toNat - 65, by omega, .inr (by omega)⟩
      · omega
  · rintro (equal | ⟨i, small, cases | cases⟩) <;> split <;> split <;> omega

/-- Both cases of an ASCII letter take one byte, so a path is cut where the root ends. -/
theorem utf8Size_of_toLower {a : Char} (same : a.toLower = b.toLower) :
    a.utf8Size = b.utf8Size := by
  have ascii : ∀ c : Char, c.toNat ≤ 127 → c.utf8Size = 1 := by
    intro c small
    exact if_pos small
  rcases toLower_eq_iff.mp same with rfl | ⟨i, small, cases | cases⟩
  · rfl
  · rw [ascii a (by omega), ascii b (by omega)]
  · rw [ascii a (by omega), ascii b (by omega)]

theorem splitAtByte_cons {n : Nat} (positive : 0 < n) (c : Char) (path : List Char) :
    splitAtByte n (c :: path) = if n < c.utf8Size then none
      else (splitAtByte (n - c.utf8Size) path).map (Prod.map (c :: ·) id) := by
  obtain ⟨n, rfl⟩ := Nat.exists_eq_add_one.mpr positive
  rfl

theorem isBelow_nil (path : List Char) : isBelow [] path = path.head?.all (· == '.') := by
  simp [isBelow, byteSize, splitAtByte]

theorem byteSize_cons_pos (r : Char) (root : List Char) : 0 < byteSize (r :: root) :=
  Nat.add_pos_left r.utf8Size_pos _

theorem isBelow_cons_nil (r : Char) (root : List Char) : isBelow (r :: root) [] = false := by
  obtain ⟨n, size⟩ := Nat.exists_eq_add_one.mpr (byteSize_cons_pos r root)
  simp [isBelow, size, splitAtByte]

/-- A byte inside of the first character is no end of a root that starts like the path. -/
theorem isBelow_cons_cons (r c : Char) (root path : List Char) :
    isBelow (r :: root) (c :: path) = (r.toLower == c.toLower && isBelow root path) := by
  rw [isBelow, splitAtByte_cons (byteSize_cons_pos r root), byteSize]
  by_cases same : r.toLower = c.toLower
  · have size := utf8Size_of_toLower same
    rw [if_neg (by omega), size, Nat.add_sub_cancel_left]
    simp [isBelow, same, Option.any_map]
  · have differ : (c.toLower == r.toLower) = false := beq_false_of_ne (Ne.symm same)
    split
    · simp [same]
    · simp [same, differ, Option.any_map]

theorem SameLetter.dot_iff {a : Char} (h : SameLetter a b) : a = '.' ↔ b = '.' := by
  have code : ∀ c : Char, c = '.' ↔ c.toNat = 46 := fun c => Char.toNat_inj.symm
  rw [code, code]
  rcases h with rfl | ⟨i, small, cases | cases⟩
  · rfl
  · omega
  · omega

theorem not_segmentsBelow_nil : ¬ SegmentsBelow (a :: as) [] := by
  rintro ⟨front, isFront, same⟩
  cases List.prefix_nil.mp isFront
  cases same

theorem segmentsBelow_cons {b : List Char} :
    SegmentsBelow (a :: as) (b :: bs) ↔ SameWord a b ∧ SegmentsBelow as bs := by
  constructor
  · rintro ⟨front, isFront, same⟩
    cases same with
    | cons first others =>
      obtain ⟨rfl, others_front⟩ := List.cons_prefix_cons.mp isFront
      exact ⟨first, _, others_front, others⟩
  · rintro ⟨first, front, isFront, others⟩
    exact ⟨b :: front, List.cons_prefix_cons.mpr ⟨rfl, isFront⟩, .cons first others⟩

theorem segmentsBelow_nil (bs : List (List Char)) : SegmentsBelow [] bs :=
  ⟨[], List.nil_prefix, .nil⟩

theorem segmentsBelow_modifyHead {r : Char} (nonempty : as ≠ []) (nonempty' : bs ≠ []) :
    SegmentsBelow (as.modifyHead (r :: ·)) (bs.modifyHead (c :: ·)) ↔
      SameLetter r c ∧ SegmentsBelow as bs := by
  obtain ⟨a, as, rfl⟩ := List.exists_cons_of_ne_nil nonempty
  obtain ⟨b, bs, rfl⟩ := List.exists_cons_of_ne_nil nonempty'
  simp only [List.modifyHead_cons, segmentsBelow_cons, SameWord, List.forall₂_cons, and_assoc]

theorem segments_dot (s : List Char) : ('.' :: s).splitOn '.' = [] :: s.splitOn '.' := by
  simp [List.splitOn_cons_eq_if_modifyHead]

theorem segments_cons (other : c ≠ '.') (s : List Char) :
    (c :: s).splitOn '.' = (s.splitOn '.').modifyHead (c :: ·) := by
  simp [List.splitOn_cons_eq_if_modifyHead, other]

theorem segmentsBelow_empty_root (path : List Char) :
    SegmentsBelow [[]] (path.splitOn '.') ↔ path = [] ∨ path.head? = some '.' := by
  cases path with
  | nil => simp [segmentsBelow_cons, segmentsBelow_nil, SameWord]
  | cons c path =>
    by_cases dot : c = '.'
    · subst dot
      simp [segments_dot, segmentsBelow_cons, segmentsBelow_nil, SameWord]
    · obtain ⟨first, others, split⟩ := List.exists_cons_of_ne_nil (List.splitOn_ne_nil '.' path)
      simp [segments_cons dot, split, segmentsBelow_cons, SameWord, dot]

theorem not_segmentsBelow_empty_path (r : Char) (root : List Char) :
    ¬ SegmentsBelow ((r :: root).splitOn '.') [[]] := by
  obtain ⟨first, others, split⟩ := List.exists_cons_of_ne_nil (List.splitOn_ne_nil '.' root)
  by_cases dot : r = '.'
  · subst dot
    simp [segments_dot, split, segmentsBelow_cons, not_segmentsBelow_nil]
  · simp [segments_cons dot, split, segmentsBelow_cons, SameWord]

theorem isBelow_iff (root path : List Char) :
    isBelow root path ↔ SegmentsBelow (root.splitOn '.') (path.splitOn '.') := by
  induction root generalizing path with
  | nil =>
    rw [isBelow_nil, List.splitOn_nil, segmentsBelow_empty_root]
    cases path <;> simp
  | cons r root ih =>
    cases path with
    | nil => simpa [isBelow_cons_nil] using not_segmentsBelow_empty_path r root
    | cons c path => ?_
    rw [isBelow_cons_cons, Bool.and_eq_true, beq_iff_eq, toLower_eq_iff, ih]
    by_cases dot : r = '.' <;> by_cases dot' : c = '.'
    · subst dot dot'
      simp [segments_dot, segmentsBelow_cons, SameWord, SameLetter]
    · have differ : ¬ SameLetter r c := fun same => dot' (same.dot_iff.mp dot)
      subst dot
      obtain ⟨first, others, split⟩ := List.exists_cons_of_ne_nil (List.splitOn_ne_nil '.' path)
      simp [segments_dot, segments_cons dot', split, segmentsBelow_cons, SameWord, differ]
    · have differ : ¬ SameLetter r c := fun same => dot (same.dot_iff.mpr dot')
      subst dot'
      obtain ⟨first, others, split⟩ := List.exists_cons_of_ne_nil (List.splitOn_ne_nil '.' root)
      simp [segments_dot, segments_cons dot, split, segmentsBelow_cons, SameWord, differ]
    · rw [segments_cons dot, segments_cons dot',
        segmentsBelow_modifyHead (List.splitOn_ne_nil '.' root)
        (List.splitOn_ne_nil '.' path)]

theorem withoutGlobal_eq (path : List Char) :
    withoutGlobal path = (path.dropPrefix? "global::".toList).getD path := by
  unfold withoutGlobal
  split
  · rename_i qualified
    obtain ⟨rest, rfl⟩ := List.isPrefixOf_iff_prefix.mp qualified
    have cut : (globalQualifier ++ rest).dropPrefix? "global::".toList = some rest :=
      List.dropPrefix?_eq_some_iff.mpr ⟨_, rfl, beq_self_eq_true _⟩
    rw [cut, List.drop_left, Option.getD_some]
  · rename_i unqualified
    cases cut : path.dropPrefix? "global::".toList with
    | none => rfl
    | some rest =>
      obtain ⟨front, rfl, same⟩ := List.dropPrefix?_eq_some_iff.mp cut
      rw [eq_of_beq same] at unqualified
      exact absurd (List.isPrefixOf_iff_prefix.mpr (List.prefix_append ..)) unqualified

end StandardPath

/-- A path is standard exactly if, without a leading `global::`, its first segments are those of one
of the roots. -/
theorem isStandardPath_iff_segments (roots : List String) (path : String) :
    isStandardPath roots path ↔ ∃ root ∈ roots,
      StandardPath.SegmentsBelow (root.toList.splitOn '.')
        (((path.toList.dropPrefix? "global::".toList).getD path.toList).splitOn '.') := by
  simp only [isStandardPath, List.any_eq_true, StandardPath.isBelow_iff,
    StandardPath.withoutGlobal_eq]

end CSharpTidy
