import CSharpTidy.Layout.Spacing
import CSharpTidy.Tree.Header
import Mathlib.Data.List.Basic

/- Where a header ends: in front of the last blank line that a comment comes before and no directive
   that pins declarations. One scan finds it. -/
namespace CSharpTidy

open CSharpTidy.Span

variable {span : Span} {t : Trivia}

theorem Trivia.kind_of_isWhitespace (h : t.isWhitespace) :
    t.isEndOfLine = false ∧ t.isComment = false ∧ t.isGuardMarker = false := by
  simp only [isWhitespace, beq_iff_eq] at h
  simp [isEndOfLine, isComment, isGuardMarker, h]

theorem Trivia.kind_of_isEndOfLine (h : t.isEndOfLine) :
    t.isComment = false ∧ t.isGuardMarker = false := by
  simp only [isEndOfLine, beq_iff_eq] at h
  simp [isComment, isGuardMarker, h]

namespace Span

def opensBlank : Span → Bool
  | [] => false
  | t :: rest => t.isEndOfLine || (t.isWhitespace && opensBlank rest)

theorem opensBlank_append (a b : Span) :
    opensBlank (a ++ b) = (opensBlank a || (a.all Trivia.isWhitespace && opensBlank b)) := by
  induction a with
  | nil => rfl
  | cons t a ih =>
    rw [List.cons_append, opensBlank, opensBlank, List.all_cons, ih]
    cases t.isEndOfLine <;> cases t.isWhitespace <;> rfl

theorem opensBlank_singleton (t : Trivia) : opensBlank [t] = t.isEndOfLine := by
  simp [opensBlank]

theorem le_of_lines {a b : Nat} (lines : span.take b = [] ∨ endsLine (span.take b))
    (inside : b ≤ span.length) (unbroken : ∀ t ∈ span.drop a, t.isEndOfLine = false) : b ≤ a := by
  by_contra past
  obtain ⟨k, rfl⟩ : ∃ k, b = a + (k + 1) := ⟨b - a - 1, by omega⟩
  have piece : (span.drop a).take (k + 1) ≠ [] := by simp; omega
  rw [List.take_add, endsLine, List.getLast?_append_of_ne_nil _ piece] at lines
  obtain ⟨t, last, ends⟩ : ∃ t ∈ ((span.drop a).take (k + 1)).getLast?, t.isEndOfLine := by
    simpa [piece, Option.any_eq_true] using lines
  rw [unbroken t (List.mem_of_mem_take (List.mem_of_getLast? last))] at ends
  cases ends

end Span

namespace Header

structure Clean (span : Span) : Prop where
  lines : span = [] ∨ span.endsLine
  free : span.hasGuardMarker = false

/-- A header can end at this index of the span: whole lines stand in front of it, with a comment and
with no directive that pins declarations, and a blank line follows. -/
structure EndsAt (span : Span) (n : Nat) : Prop where
  clean : Clean (span.take n)
  comment : ∃ t ∈ span.take n, t.isComment
  blank : opensBlank (span.drop n)

/-- The last index at which a header can end, if there is one. -/
def LastEnd (span : Span) : Option Nat → Prop
  | none => ∀ n, ¬ EndsAt span n
  | some k => EndsAt span k ∧ ∀ n, EndsAt span n → n ≤ k

theorem LastEnd.congr {span' : Span} {o : Option Nat} (h : LastEnd span o)
    (same : ∀ n, EndsAt span' n ↔ EndsAt span n) : LastEnd span' o := by
  cases o with
  | none => exact fun n ends => h n ((same n).mp ends)
  | some k => exact ⟨(same k).mpr h.1, fun n ends => h.2 n ((same n).mp ends)⟩

namespace EndsAt

variable {span seen rest : Span} {t : Trivia} {n : Nat}

theorem lt_length (h : EndsAt span n) : n < span.length := by
  by_contra past
  have blank := h.blank
  rw [List.drop_of_length_le (by omega)] at blank
  cases blank

/-- A blank line that ends in the rest starts in what was seen. -/
theorem append_iff (inside : n ≤ seen.length) : EndsAt (seen ++ rest) n ↔
    EndsAt seen n ∨ (Clean (seen.take n) ∧ (∃ t ∈ seen.take n, t.isComment) ∧
      (seen.drop n).all Trivia.isWhitespace ∧ opensBlank rest) := by
  have whole : EndsAt (seen ++ rest) n ↔ Clean (seen.take n) ∧ (∃ t ∈ seen.take n, t.isComment) ∧
      (opensBlank (seen.drop n) ∨ (seen.drop n).all Trivia.isWhitespace ∧ opensBlank rest) := by
    rw [← Bool.and_eq_true, ← Bool.or_eq_true, ← opensBlank_append,
      ← List.drop_append_of_le_length inside, ← List.take_append_of_le_length inside]
    exact ⟨fun h => ⟨h.clean, h.comment, h.blank⟩, fun h => ⟨h.1, h.2.1, h.2.2⟩⟩
  rw [whole]
  constructor
  · rintro ⟨clean, comment, blank | white⟩
    · exact .inl ⟨clean, comment, blank⟩
    · exact .inr ⟨clean, comment, white⟩
  · rintro (h | ⟨clean, comment, white⟩)
    · exact ⟨h.clean, h.comment, .inl h.blank⟩
    · exact ⟨clean, comment, .inr white⟩

theorem le_length_of_append_singleton (h : EndsAt (seen ++ [t]) n) : n ≤ seen.length :=
  Nat.lt_succ_iff.mp (by simpa using h.lt_length)

theorem le_length_of_pins (pins : t.isGuardMarker) (h : EndsAt (seen ++ t :: rest) n) :
    n ≤ seen.length := by
  by_contra past
  obtain ⟨k, rfl⟩ : ∃ k, n = seen.length + (k + 1) := ⟨n - seen.length - 1, by omega⟩
  have free := h.clean.free
  simp [List.take_append, hasGuardMarker, pins] at free

theorem append (h : EndsAt seen n) (rest : Span) : EndsAt (seen ++ rest) n :=
  (append_iff (Nat.le_of_lt h.lt_length)).mpr (.inl h)

theorem append_iff_of_shut (shut : opensBlank rest = false)
    (inside : EndsAt (seen ++ rest) n → n ≤ seen.length) :
    EndsAt (seen ++ rest) n ↔ EndsAt seen n := by
  constructor
  · intro h
    exact ((append_iff (inside h)).mp h).resolve_right fun new => by simp [shut] at new
  · intro h
    exact h.append rest

end EndsAt

/-- What the scan knows behind whole lines and a piece of the line that follows them. -/
structure Progress.Knows (p : Progress) (lines line : Span) : Prop where
  index : p.index = (lines ++ line).length
  lineStart : p.lineStart = lines.length
  whole : lines = [] ∨ lines.endsLine
  unbroken : ∀ t ∈ line, t.isEndOfLine = false
  free : hasGuardMarker (lines ++ line) = false
  blank : p.lineBlank = line.all Trivia.isWhitespace
  comment : p.seenComment = (lines ++ line).any Trivia.isComment
  last : LastEnd (lines ++ line) p.split

namespace Progress.Knows

variable {p : Progress} {lines line : Span} {t : Trivia}

theorem step (h : p.Knows lines line) (inline : t.isEndOfLine = false)
    (plain : t.isGuardMarker = false) :
    Knows ⟨p.index + 1, p.lineStart, p.lineBlank && t.isWhitespace, p.seenComment || t.isComment,
      p.split⟩ lines (line ++ [t]) where
  index := by simp [h.index, Nat.add_assoc]
  lineStart := h.lineStart
  whole := h.whole
  unbroken := List.forall_mem_append.mpr ⟨h.unbroken, by simpa using inline⟩
  free := by simpa [hasGuardMarker, plain] using h.free
  blank := by simp [h.blank]
  comment := by simp [h.comment, Bool.or_assoc]
  last := by
    rw [← List.append_assoc]
    exact h.last.congr fun n => EndsAt.append_iff_of_shut (by rw [opensBlank_singleton, inline])
      EndsAt.le_length_of_append_singleton

/-- The header can end in front of the current line if that is blank and a comment was seen. -/
theorem endsAt_lineStart (h : p.Knows lines line) (ends : t.isEndOfLine) (blank : p.lineBlank)
    (comment : p.seenComment) : EndsAt (lines ++ line ++ [t]) p.lineStart := by
  rw [h.blank, List.all_eq_true] at blank
  rw [h.comment, List.any_append, Bool.or_eq_true, List.any_eq_true, List.any_eq_true] at comment
  rw [h.lineStart, EndsAt.append_iff (by simp), List.take_left, List.drop_left]
  have free := h.free
  simp only [hasGuardMarker, List.any_append, Bool.or_eq_false_iff] at free
  refine .inr ⟨⟨h.whole, free.1⟩, comment.resolve_right ?_, List.all_eq_true.mpr blank, ?_⟩
  · rintro ⟨c, mem, comment⟩
    simp [(Trivia.kind_of_isWhitespace (blank c mem)).2.1] at comment
  · rw [opensBlank_singleton, ends]

theorem of_endsAt (h : p.Knows lines line) {n : Nat} (ends : EndsAt (lines ++ line ++ [t]) n) :
    n ≤ p.lineStart ∧ (EndsAt (lines ++ line) n ∨ (p.lineBlank ∧ p.seenComment)) := by
  have inside := ends.le_length_of_append_singleton
  have up {n : Nat} (clean : Clean ((lines ++ line).take n)) (inside : n ≤ (lines ++ line).length) :
      n ≤ p.lineStart :=
    le_of_lines clean.lines inside (by simpa [h.lineStart] using h.unbroken)
  obtain old | ⟨clean, ⟨c, mem, comment⟩, white, -⟩ := (EndsAt.append_iff inside).mp ends
  · exact ⟨up old.clean inside, .inl old⟩
  · have low : lines.length ≤ n :=
      le_of_lines (by simpa using h.whole) (by simp) fun u mem =>
        (Trivia.kind_of_isWhitespace (List.all_eq_true.mp white u mem)).1
    have first : n = lines.length := Nat.le_antisymm (h.lineStart ▸ up clean inside) low
    rw [first, List.drop_left] at white
    refine ⟨up clean inside, .inr ⟨h.blank.trans white, ?_⟩⟩
    rw [h.comment, List.any_eq_true]
    exact ⟨c, List.mem_of_mem_take mem, comment⟩

theorem newLine (h : p.Knows lines line) (ends : t.isEndOfLine) :
    Knows ⟨p.index + 1, p.index + 1, true, p.seenComment,
      if p.lineBlank && p.seenComment then some p.lineStart else p.split⟩
      (lines ++ line ++ [t]) [] := by
  obtain ⟨silent, plain⟩ := Trivia.kind_of_isEndOfLine ends
  refine ⟨by simp [h.index, Nat.add_assoc], by simp [h.index, Nat.add_assoc],
    .inr (by simp [endsLine, ends]), by simp, by simpa [hasGuardMarker, plain] using h.free, rfl,
    by simp [h.comment, silent], ?_⟩
  rw [List.append_nil]
  split
  · rename_i ended
    rw [Bool.and_eq_true] at ended
    exact ⟨h.endsAt_lineStart ends ended.1 ended.2, fun n here => (h.of_endsAt here).1⟩
  · rename_i goesOn
    rw [Bool.and_eq_true] at goesOn
    exact h.last.congr fun n => ⟨fun here => (h.of_endsAt here).2.resolve_right goesOn,
      fun here => here.append [t]⟩

end Progress.Knows

theorem scan_lastEnd {p : Progress} {lines line rest : Span} (h : p.Knows lines line) :
    LastEnd (lines ++ line ++ rest) (scan p rest) := by
  induction rest generalizing p lines line with
  | nil =>
    rw [List.append_nil]
    exact h.last
  | cons t rest ih =>
    rw [scan]
    simp only
    split
    · rename_i ends
      simpa using ih (h.newLine ends)
    · rename_i inline
      have inline : t.isEndOfLine = false := by simpa using inline
      split
      · rename_i white
        obtain ⟨-, silent, plain⟩ := Trivia.kind_of_isWhitespace white
        simpa [white, silent] using ih (h.step inline plain)
      · rename_i solid
        split
        · rename_i pins
          exact h.last.congr fun n => EndsAt.append_iff_of_shut
            (by simp [opensBlank, inline, solid]) (EndsAt.le_length_of_pins pins)
        · rename_i plain
          simpa [solid] using ih (h.step inline (by simpa using plain))

theorem split_lastEnd (span : Span) : LastEnd span (split? span) := by
  have start : Progress.Knows {} [] [] := ⟨rfl, rfl, .inl rfl, by simp, rfl, rfl, rfl,
    fun _ ends => absurd ends.blank (by simp [opensBlank])⟩
  exact scan_lastEnd start

theorem split_eq_some_iff {k : Nat} :
    split? span = some k ↔ EndsAt span k ∧ ∀ n, EndsAt span n → n ≤ k := by
  have last := split_lastEnd span
  constructor
  · intro found
    rwa [found] at last
  · rintro ⟨ends, latest⟩
    cases found : split? span with
    | none =>
      rw [found] at last
      exact absurd ends (last k)
    | some j =>
      rw [found] at last
      exact congrArg some (Nat.le_antisymm (latest j last.1) (last.2 k ends))

theorem split_eq_none_iff : split? span = none ↔ ∀ n, ¬ EndsAt span n := by
  have last := split_lastEnd span
  cases found : split? span with
  | none =>
    rw [found] at last
    exact iff_of_true rfl last
  | some k =>
    rw [found] at last
    exact iff_of_false (by simp) fun never => never k last.1

theorem detachFirst_clean (d : Decl) (rest : List Decl) :
    ∃ n, detachFirst (d :: rest) =
        (d.leading.take n, { d with leading := d.leading.drop n } :: rest) ∧
      Clean (d.leading.take n) := by
  rw [detachFirst]
  split
  · exact ⟨0, by cases d; rfl, .inl rfl, rfl⟩
  · rename_i n found
    exact ⟨n, rfl, (split_eq_some_iff.mp found).1.clean⟩

variable {root : Block Decl} {α : Type}

theorem detachFirst_map {f : Decl → α} (unled : ∀ (d : Decl) (n : Nat), Clean (d.leading.take n) →
      f { d with leading := d.leading.drop n } = f d) (ds : List Decl) :
    (detachFirst ds).2.map f = ds.map f := by
  cases ds with
  | nil => rfl
  | cons d rest =>
    obtain ⟨n, detached, clean⟩ := detachFirst_clean d rest
    rw [detached, List.map_cons, List.map_cons, unled d n clean]

theorem detachFirst_cons_append (d : Decl) (ds es : List Decl) :
    detachFirst (d :: (ds ++ es)) =
      ((detachFirst (d :: ds)).1, (detachFirst (d :: ds)).2 ++ es) := by
  rw [detachFirst, detachFirst]
  cases split? d.leading <;> rfl

/-- The header comes off the first declaration of the first list that has one. -/
theorem detach_cases (root : Block Decl) :
    detach root = ([], root) ∨ ∃ d rest n, Clean (d.leading.take n) ∧
      (root.imports = d :: rest ∧ detach root = (d.leading.take n,
          { root with imports := { d with leading := d.leading.drop n } :: rest }) ∨
        root.imports = [] ∧ root.attributes = d :: rest ∧ detach root = (d.leading.take n,
          { root with attributes := { d with leading := d.leading.drop n } :: rest }) ∨
        root.imports = [] ∧ root.attributes = [] ∧ root.members = d :: rest ∧ detach root =
          (d.leading.take n,
            { root with members := { d with leading := d.leading.drop n } :: rest })) := by
  obtain ⟨braced, openTrailing, imports, attributes, members, closeLeading, close⟩ := root
  cases imports with
  | cons d rest =>
    obtain ⟨n, first, clean⟩ := detachFirst_clean d rest
    exact .inr ⟨d, rest, n, clean, .inl ⟨rfl, by simp [detach, first]⟩⟩
  | nil =>
    cases attributes with
    | cons d rest =>
      obtain ⟨n, first, clean⟩ := detachFirst_clean d rest
      exact .inr ⟨d, rest, n, clean, .inr (.inl ⟨rfl, rfl, by simp [detach, first]⟩)⟩
    | nil =>
      cases members with
      | cons d rest =>
        obtain ⟨n, first, clean⟩ := detachFirst_clean d rest
        exact .inr ⟨d, rest, n, clean, .inr (.inr ⟨rfl, rfl, rfl, by simp [detach, first]⟩)⟩
      | nil => exact .inl rfl

theorem detach_decls (root : Block Decl) :
    ((detach root).1, (detach root).2.decls) = detachFirst root.decls := by
  obtain ⟨braced, openTrailing, imports, attributes, members, closeLeading, close⟩ := root
  cases imports with
  | cons d ds => simp [detach, Block.decls, detachFirst_cons_append]
  | nil =>
    cases attributes with
    | cons d ds => simp [detach, Block.decls, detachFirst_cons_append]
    | nil => simp [detach, Block.decls]

theorem detach_map {f : Decl → α} (unled : ∀ (d : Decl) (n : Nat), Clean (d.leading.take n) →
      f { d with leading := d.leading.drop n } = f d) (root : Block Decl) :
    (detach root).2.imports.map f = root.imports.map f ∧
      (detach root).2.attributes.map f = root.attributes.map f ∧
      (detach root).2.members.map f = root.members.map f := by
  unfold detach
  split
  · exact ⟨detachFirst_map unled _, rfl, rfl⟩
  · split
    · exact ⟨rfl, detachFirst_map unled _, rfl⟩
    · exact ⟨rfl, rfl, detachFirst_map unled _⟩

theorem detach_nil (none : (detach root).2.decls = []) : (detach root).1 = [] := by
  have detached := detach_decls root
  cases decls : root.decls with
  | nil => exact (Prod.mk.inj (decls ▸ detached)).1
  | cons d ds =>
    obtain ⟨n, cut, -⟩ := detachFirst_clean d ds
    rw [decls, cut, none, Prod.mk.injEq] at detached
    cases detached.2

theorem detach_frame (root : Block Decl) :
    (detach root).2.openTrailing = root.openTrailing ∧ (detach root).2.braced = root.braced ∧
      (detach root).2.closeLeading = root.closeLeading ∧ (detach root).2.close = root.close := by
  unfold detach
  split
  · exact ⟨rfl, rfl, rfl, rfl⟩
  · split <;> exact ⟨rfl, rfl, rfl, rfl⟩

theorem forall_detach {P : Trivia → Prop} {Q : Decl → Prop}
    (leading : ∀ d, Q d → ∀ t ∈ d.leading, P t)
    (drop : ∀ (d : Decl) (n : Nat), Q d → Q { d with leading := d.leading.drop n })
    (h : ∀ d ∈ root.decls, Q d) :
    (∀ t ∈ (detach root).1, P t) ∧ ∀ d ∈ (detach root).2.decls, Q d := by
  have detached := detach_decls root
  cases decls : root.decls with
  | nil =>
    obtain ⟨header, rest⟩ := Prod.mk.inj (decls ▸ detached)
    simp [header, rest]
  | cons d ds =>
    obtain ⟨n, cut, -⟩ := detachFirst_clean d ds
    rw [decls, cut] at detached
    obtain ⟨header, rest⟩ := Prod.mk.inj detached
    rw [decls, List.forall_mem_cons] at h
    rw [header, rest, List.forall_mem_cons]
    exact ⟨fun t mem => leading d h.1 t (List.mem_of_mem_take mem), drop d n h.1, h.2⟩

theorem forall_body_detach {P : Block Decl → Prop}
    (h : ∀ d ∈ root.members, ∀ a, d.block = some a → P a) :
    ∀ d ∈ (detach root).2.members, ∀ a, d.block = some a → P a := by
  rw [← List.forall_mem_map (f := Decl.block) (P := fun block => ∀ a, block = some a → P a)] at h ⊢
  rwa [(detach_map (fun _ _ _ => rfl) root).2.2]

end Header

end CSharpTidy
