import CSharpTidy.Settings.FileDirective
import CSharpTidy.Proofs.FlowEnd
import CSharpTidy.Proofs.TextRows
import Mathlib.Data.List.Forall2

/- Which lines are directives to the tool. A directive starts with a marker, and whether a line has
   one is settled by the characters up to its colon. -/
namespace CSharpTidy

theorem Text.exists_append_trimStart (s : List Char) :
    ∃ blanks, s = blanks ++ trimStart s ∧ ∀ c ∈ blanks, isBlank c = true :=
  ⟨_, List.takeWhile_append_dropWhile.symm, fun _ mem => List.mem_takeWhile_imp mem⟩

namespace FileDirective

open Text

def word : List Char := "csorganize:".toList

/-- What a directive starts with: two slashes and the name with its colon, and white space in front
of both. -/
inductive Marker : List Char → Prop
  | spelled {indent gap name : List Char} (indented : ∀ c ∈ indent, Text.isBlank c = true)
      (gapped : ∀ c ∈ gap, Text.isBlank c = true)
      (named : List.Forall₂ (fun c letter => foldsTo c letter = true) name word) :
      Marker (indent ++ '/' :: '/' :: (gap ++ name))

def inMarker (c : Char) : Bool :=
  Text.isBlank c || c == '/' || word.any (foldsTo c)

variable {row s rest line t letters marker blanks : List Char} {c : Char} {rows : List (List Char)}

theorem toLower_of_isBlank (blank : Text.isBlank c = true) : c.toLower = c := by
  have capitals : ∀ n < 91, 65 ≤ n → Text.inRanges Text.blankRanges n = false := by decide
  apply dif_neg
  rintro ⟨low, high⟩
  have below : c.toNat < 91 := Nat.lt_succ_of_le (UInt32.le_iff_toNat_le.mp high)
  rw [Text.isBlank, capitals c.toNat below (UInt32.le_iff_toNat_le.mp low)] at blank
  cases blank

theorem isBlank_of_foldsTo {letter : Char} (mem : letter ∈ word) (folds : foldsTo c letter = true) :
    Text.isBlank c = false := by
  by_contra blank
  have blank : Text.isBlank c = true := by simpa using blank
  have solid : word.all (fun letter => Text.isBlank letter == false) = true := rfl
  simp only [foldsTo, toLower_of_isBlank blank, Bool.or_eq_true, Bool.and_eq_true, beq_iff_eq]
    at folds
  rcases folds with rfl | ⟨-, rfl⟩
  · rw [eq_of_beq (List.all_eq_true.mp solid c mem)] at blank
    cases blank
  · exact absurd blank (by decide)

theorem afterWord_eq_some_iff : afterWord letters s = some rest ↔
    ∃ name, s = name ++ rest ∧
      List.Forall₂ (fun c letter => foldsTo c letter = true) name letters := by
  induction letters generalizing s with
  | nil =>
    simp only [afterWord, Option.some.injEq, List.forall₂_nil_right_iff]
    constructor
    · rintro rfl
      exact ⟨[], rfl, rfl⟩
    · rintro ⟨_, eq, rfl⟩
      exact eq
  | cons letter letters ih =>
    cases s with
    | nil => simp [afterWord]
    | cons c s =>
      by_cases folds : foldsTo c letter = true
      · simp only [afterWord, folds, if_true, ih]
        constructor
        · rintro ⟨name, rfl, same⟩
          exact ⟨c :: name, rfl, .cons folds same⟩
        · rintro ⟨name, eq, same⟩
          cases same with
          | cons _ same =>
            exact ⟨_, (List.cons.inj eq).2, same⟩
      · simp only [afterWord, folds, Bool.false_eq_true, if_false, reduceCtorEq, false_iff]
        rintro ⟨name, eq, same⟩
        cases same with
        | cons first _ =>
          rw [(List.cons.inj eq).1] at folds
          exact folds first

theorem afterMarker_eq_some_iff :
    afterMarker line = some rest ↔ ∃ marker, line = marker ++ rest ∧ Marker marker := by
  constructor
  · intro found
    unfold afterMarker at found
    split at found
    · rename_i behind slashes
      obtain ⟨name, named_eq, named⟩ := afterWord_eq_some_iff.mp found
      obtain ⟨indent, line_eq, indented⟩ := Text.exists_append_trimStart line
      obtain ⟨gap, behind_eq, gapped⟩ := Text.exists_append_trimStart behind
      refine ⟨_, ?_, .spelled indented gapped named⟩
      rw [line_eq, slashes, behind_eq, named_eq]
      simp
    · cases found
  · rintro ⟨_, rfl, @⟨indent, gap, name, indented, gapped, named⟩⟩
    have read : afterWord word (name ++ rest) = some rest :=
      afterWord_eq_some_iff.mpr ⟨name, rfl, named⟩
    have solid : Text.trimStart (name ++ rest) = name ++ rest := by
      cases named with
      | cons first _ => exact Text.trimStart_append_cons [] (isBlank_of_foldsTo (by decide) first) _
    have slashes : Text.trimStart ((indent ++ '/' :: '/' :: (gap ++ name)) ++ rest) =
        '/' :: '/' :: (gap ++ (name ++ rest)) := by
      rw [List.append_assoc, Text.trimStart_append_of_blank indented]
      simp only [List.cons_append, List.append_assoc]
      exact Text.trimStart_append_cons [] (by decide) _
    simp only [afterMarker, slashes, Text.trimStart_append_of_blank gapped, solid]
    exact read

theorem any_foldsTo {name : List Char}
    (named : List.Forall₂ (fun c letter => foldsTo c letter = true) name letters) :
    ∀ c ∈ name, letters.any (foldsTo c) = true := by
  induction named with
  | nil => simp
  | @cons c letter name letters folds _ ih =>
    intro d mem
    rcases List.mem_cons.mp mem with rfl | mem
    · simp [folds]
    · simp [ih d mem]

theorem Marker.inMarker (h : Marker marker) : ∀ c ∈ marker, inMarker c = true := by
  obtain ⟨indented, gapped, named⟩ := h
  intro c mem
  simp only [List.mem_append, List.mem_cons] at mem
  rcases mem with mem | rfl | rfl | mem | mem
  · simp [FileDirective.inMarker, indented c mem]
  · rfl
  · rfl
  · simp [FileDirective.inMarker, gapped c mem]
  · rw [FileDirective.inMarker, any_foldsTo named c mem, Bool.or_true]

theorem eq_colon_of_foldsTo (folds : foldsTo c ':' = true) : c = ':' := by
  have lower : c.toLower = ':' := by simpa [foldsTo] using folds
  unfold Char.toLower at lower
  split at lower
  · rename_i upper
    have low : 65 ≤ c.toNat := UInt32.le_iff_toNat_le.mp upper.1
    have high : c.toNat ≤ 90 := UInt32.le_iff_toNat_le.mp upper.2
    have shifted : (c.toNat + 32) % 4294967296 = 58 := congrArg Char.toNat lower
    omega
  · exact lower

theorem Marker.exists_colon (h : Marker marker) : ∃ front, marker = front ++ [':'] := by
  obtain @⟨indent, gap, name, _, _, named⟩ := h
  have backwards : List.Forall₂ _ name.reverse (':' :: "ezinagrosc".toList) :=
    List.forall₂_reverse_iff.mpr named
  obtain ⟨c, front, folds, _, eq⟩ := List.forall₂_cons_right_iff.mp backwards
  refine ⟨indent ++ '/' :: '/' :: (gap ++ front.reverse), ?_⟩
  rw [List.reverse_eq_cons_iff.mp eq, eq_colon_of_foldsTo folds]
  simp

theorem afterMarker_append (found : afterMarker s = some rest) (t : List Char) :
    afterMarker (s ++ t) = some (rest ++ t) := by
  obtain ⟨marker, rfl, spelled⟩ := afterMarker_eq_some_iff.mp found
  rw [List.append_assoc]
  exact afterMarker_eq_some_iff.mpr ⟨marker, rfl, spelled⟩

/-- A marker ends in the first part of a text, or that part is all marker and its colon stands in
the second. -/
theorem afterMarker_of_append (found : afterMarker (s ++ t) = some rest) :
    (∃ r, afterMarker s = some r ∧ rest = r ++ t) ∨ ((∀ c ∈ s, inMarker c = true) ∧ ':' ∈ t) := by
  obtain ⟨marker, whole, spelled⟩ := afterMarker_eq_some_iff.mp found
  rcases List.append_eq_append_iff.mp whole with ⟨more, rfl, rfl⟩ | ⟨more, rfl, rfl⟩
  · rcases List.eq_nil_or_concat more with rfl | ⟨inner, last, rfl⟩
    · refine .inl ⟨[], afterMarker_eq_some_iff.mpr ⟨s, by simp, by simpa using spelled⟩, by simp⟩
    · refine .inr ⟨fun c mem => spelled.inMarker c (List.mem_append_left _ mem), ?_⟩
      obtain ⟨front, eq⟩ := spelled.exists_colon
      rw [List.concat_eq_append, ← List.append_assoc] at eq
      have colon : last = ':' := by simpa using (List.append_inj' eq rfl).2
      simp [colon]
  · exact .inl ⟨more, afterMarker_eq_some_iff.mpr ⟨marker, rfl, spelled⟩, rfl⟩

theorem text?_append_blank (line : List Char) (blank : ∀ c ∈ blanks, Text.isBlank c = true) :
    text? (line ++ blanks) = text? line := by
  cases here : afterMarker line with
  | some rest =>
    simp only [text?, here, afterMarker_append here, Text.trim_append_of_blank _ blank]
  | none =>
    cases whole : afterMarker (line ++ blanks) with
    | none => rw [text?, text?, here, whole]
    | some rest =>
      rcases afterMarker_of_append whole with ⟨r, found, _⟩ | ⟨_, colon⟩
      · rw [here] at found
        cases found
      · exact absurd (blank ':' colon) (by decide)

theorem isDirective_eq (single : '\n' ∉ line) : isDirective line = (afterMarker line).isSome := by
  unfold isDirective text?
  cases found : afterMarker line with
  | none => rfl
  | some rest =>
    obtain ⟨marker, rfl, _⟩ := afterMarker_eq_some_iff.mp found
    have inside : '\n' ∉ Text.trim rest := by
      intro mem
      have mem := (List.dropWhile_suffix Text.isBlank).subset (Text.mem_of_mem_trimEnd mem)
      exact single (List.mem_append_right _ mem)
    simp [inside]

theorem isDirective_append (single : '\n' ∉ s ++ t) (directive : isDirective s = true) :
    isDirective (s ++ t) = true := by
  rw [isDirective_eq single]
  rw [isDirective_eq fun mem => single (List.mem_append_left _ mem), Option.isSome_iff_exists]
    at directive
  obtain ⟨rest, found⟩ := directive
  rw [afterMarker_append found]
  rfl

/-- Behind a character that no marker has, nothing settles whether a line is a directive. -/
theorem isDirective_append_of_stop (single : '\n' ∉ s ++ t) (mem : c ∈ s)
    (stops : inMarker c = false) : isDirective (s ++ t) = isDirective s := by
  rw [Bool.eq_iff_iff]
  refine ⟨?_, isDirective_append single⟩
  rw [isDirective_eq single, isDirective_eq fun mem => single (List.mem_append_left _ mem),
    Option.isSome_iff_exists]
  rintro ⟨rest, found⟩
  rcases afterMarker_of_append found with ⟨r, here, _⟩ | ⟨all, _⟩
  · simp [here]
  · rw [all c mem] at stops
    cases stops

/-- Only byte order marks and then white space stand on the row so far. -/
def opens (row : List Char) : Bool :=
  (withoutMarks row).all Text.isBlank

theorem withoutMarks_append_cons (row : List Char) (other : c ≠ byteOrderMark) (t : List Char) :
    withoutMarks (row ++ c :: t) = withoutMarks row ++ c :: t := by
  have stops : (c == byteOrderMark) = false := by simpa using other
  rw [withoutMarks, List.dropWhile_append, List.dropWhile_cons_of_neg (by simp [stops])]
  split
  · rename_i empty
    rw [withoutMarks, List.isEmpty_iff.mp empty, List.nil_append]
  · rfl

theorem ne_lineFeed_of_solid (solid : isVoid c = false) : c ≠ '\n' := by
  rintro rfl
  exact absurd solid (by decide)

theorem ne_byteOrderMark_of_solid (solid : isVoid c = false) : c ≠ byteOrderMark := by
  rintro rfl
  exact absurd solid (by decide)

theorem isDirective_row_of_stop {back : List Char} {stop : Char}
    (single : '\n' ∉ row ++ stop :: back ++ t) (solid : isVoid stop = false)
    (stops : inMarker stop = false) : isDirective (withoutMarks (row ++ stop :: back ++ t)) =
      isDirective (withoutMarks (row ++ stop :: back)) := by
  have other := ne_byteOrderMark_of_solid solid
  have cut : withoutMarks (row ++ stop :: back ++ t) = withoutMarks (row ++ stop :: back) ++ t := by
    rw [List.append_assoc, List.cons_append, withoutMarks_append_cons row other,
      withoutMarks_append_cons row other]
    simp
  have single : '\n' ∉ withoutMarks (row ++ stop :: back) ++ t := by
    rw [← cut]
    exact fun mem => single ((List.dropWhile_suffix _).subset mem)
  rw [cut]
  apply isDirective_append_of_stop single _ stops
  rw [withoutMarks_append_cons row other]
  simp

theorem text?_of_opens (open_ : opens row = true) (solid : isVoid c = false) (t : List Char) :
    text? (withoutMarks (row ++ c :: t)) = text? (c :: t) := by
  have blank : ∀ a ∈ withoutMarks row, Text.isBlank a = true := by simpa [opens] using open_
  have start : Text.trimStart (withoutMarks (row ++ c :: t)) = Text.trimStart (c :: t) := by
    rw [withoutMarks_append_cons row (ne_byteOrderMark_of_solid solid),
      Text.trimStart_append_of_blank blank]
  rw [text?, text?, afterMarker, afterMarker, start]

theorem not_opens_append_cons (row : List Char) (solid : isVoid c = false) (t : List Char) :
    opens (row ++ c :: t) = false := by
  simp [opens, withoutMarks_append_cons row (ne_byteOrderMark_of_solid solid),
    not_isBlank_of_solid solid]

theorem isDirective_of_opens (open_ : opens row = true) :
    isDirective (withoutMarks row) = false := by
  have blank : ∀ a ∈ withoutMarks row, Text.isBlank a = true := by simpa [opens] using open_
  have empty : Text.trimStart (withoutMarks row) = [] := List.dropWhile_eq_nil_iff.mpr blank
  simp [isDirective, text?, afterMarker, empty]

theorem dropWhile_append_of_ne_nil {p : Char → Bool} (h : s.dropWhile p ≠ []) (t : List Char) :
    (s ++ t).dropWhile p = s.dropWhile p ++ t := by
  rw [List.dropWhile_append, if_neg (by simpa [List.isEmpty_iff] using h)]

theorem opens_of_append {more : List Char} (open_ : opens (row ++ more) = true) :
    opens row = true := by
  unfold opens withoutMarks at open_ ⊢
  rw [List.dropWhile_append] at open_
  split at open_
  · rename_i empty
    rw [List.isEmpty_iff.mp empty]
    rfl
  · rw [List.all_append, Bool.and_eq_true] at open_
    exact open_.1

theorem opens_append_blank (open_ : opens row = true)
    (blank : ∀ c ∈ blanks, Text.isBlank c = true) :
    opens (row ++ blanks) = true := by
  unfold opens withoutMarks at open_ ⊢
  rw [List.dropWhile_append]
  split
  · exact List.all_eq_true.mpr fun c mem => blank c ((List.dropWhile_suffix _).subset mem)
  · rw [List.all_append, open_, Bool.true_and]
    exact List.all_eq_true.mpr blank

theorem isVoid_of_opens (open_ : opens row = true) : ∀ c ∈ row, isVoid c = true := by
  intro c mem
  have parts : row.takeWhile (· == byteOrderMark) ++ withoutMarks row = row :=
    List.takeWhile_append_dropWhile
  rw [← parts, List.mem_append] at mem
  rcases mem with mark | rest
  · have mark : c = byteOrderMark := by simpa using List.mem_takeWhile_imp mark
    rw [mark]
    rfl
  · exact isVoid_of_isBlank (List.all_eq_true.mp open_ c rest)

theorem eq_byteOrderMark_of_void (void : isVoid c = true) (other : Text.isBlank c = false) :
    c = byteOrderMark := by
  have unbroken : isLineBreak c = false := by
    by_contra breaks
    rw [isBlank_of_isLineBreak (by simpa using breaks)] at other
    cases other
  simpa [isVoid, isSpace, other, unbroken, byteOrderMark] using void

theorem isDirective_eq_false (unmarked : afterMarker line = none) : isDirective line = false := by
  rw [isDirective, text?, unmarked]
  rfl

theorem afterMarker_eq_none (start : Text.trimStart line = c :: rest) (other : c ≠ '/') :
    afterMarker line = none := by
  unfold afterMarker
  split
  · rename_i slashes
    rw [start] at slashes
    exact absurd (List.cons.inj slashes).1 other
  · rfl

/-- A byte order mark behind white space closes a row for good. -/
theorem isDirective_of_mark {spaces : List Char} (open_ : opens row = true)
    (space : ∀ c ∈ spaces, isVoid c = true) (closed : opens (row ++ spaces) = false)
    (t : List Char) :
    isDirective (withoutMarks (row ++ spaces ++ t)) = false := by
  have void : ∀ c ∈ row ++ spaces, isVoid c = true :=
    List.forall_mem_append.mpr ⟨isVoid_of_opens open_, space⟩
  cases behind : (withoutMarks (row ++ spaces)).dropWhile Text.isBlank with
  | nil =>
    rw [opens, List.all_eq_true.mpr (List.dropWhile_eq_nil_iff.mp behind)] at closed
    cases closed
  | cons c rest =>
    have solid : Text.isBlank c = false := by
      have := List.head?_dropWhile_not Text.isBlank (withoutMarks (row ++ spaces))
      simpa [behind] using this
    have inside : c ∈ withoutMarks (row ++ spaces) :=
      (List.dropWhile_suffix Text.isBlank).subset (behind ▸ List.mem_cons_self)
    have mem : c ∈ row ++ spaces := (List.dropWhile_suffix (· == byteOrderMark)).subset inside
    have inner : withoutMarks (row ++ spaces ++ t) = withoutMarks (row ++ spaces) ++ t :=
      dropWhile_append_of_ne_nil (List.ne_nil_of_mem inside) t
    have outer : Text.trimStart (withoutMarks (row ++ spaces ++ t)) = c :: (rest ++ t) := by
      rw [inner, Text.trimStart, dropWhile_append_of_ne_nil (by simp [behind]), behind]
      rfl
    apply isDirective_eq_false (afterMarker_eq_none outer _)
    rw [eq_byteOrderMark_of_void (void c mem) solid]
    decide

/-- The text starts with a solid character, and not with a line comment, a documenting one apart. -/
structure Uncommented (s : List Char) : Prop where
  solid : ∃ c t, s = c :: t ∧ isVoid c = false
  slashes : ∀ t, s = '/' :: '/' :: t → t.head? = some '/'

theorem Uncommented.isDirective (uncommented : Uncommented s) (open_ : opens row = true) :
    isDirective (withoutMarks (row ++ rowRest s)) = false := by
  obtain ⟨⟨c, t, rfl, solid⟩, slashes⟩ := uncommented
  rw [rowRest_cons (ne_lineFeed_of_solid solid), FileDirective.isDirective,
    text?_of_opens open_ solid]
  apply isDirective_eq_false
  have start : Text.trimStart (c :: rowRest t) = c :: rowRest t :=
    Text.trimStart_append_cons [] (not_isBlank_of_solid solid) _
  unfold afterMarker
  split
  · -- a third slash follows the first two
    rename_i rest found
    rw [start, List.cons.injEq] at found
    obtain ⟨rfl, found⟩ := found
    obtain ⟨t, rfl⟩ := eq_cons_of_rowRest found
    rw [rowRest_cons (by decide), List.cons.injEq] at found
    obtain ⟨t, rfl⟩ := List.head?_eq_some_iff.mp (slashes t rfl)
    rw [← found.2, rowRest_cons (by decide)]
    rfl
  · rfl

theorem findIn_append (rows more : List (List Char)) : findIn (rows ++ more) =
    if rows.any fun row => isDirective (withoutMarks row) then findIn rows else findIn more := by
  induction rows with
  | nil => rfl
  | cons row rows ih =>
    cases directive : isDirective (withoutMarks row) with
    | true => simp [findIn, directive]
    | false => simp [findIn, directive, ih]

theorem findIn_row (single : '\n' ∉ row)
    (other : isDirective (withoutMarks (row ++ rowRest s)) = false →
      findIn ((row ++ s).splitOn '\n') = findIn rows) :
    findIn ((row ++ s).splitOn '\n') = findIn ((row ++ rowRest s) :: rows) := by
  obtain ⟨more, split⟩ := splitOn_row single s
  cases directive : isDirective (withoutMarks (row ++ rowRest s)) with
  | true => simp [split, findIn, directive]
  | false => simp [other directive, findIn, directive]

theorem findIn_rows (other : isDirective (withoutMarks (lastRow s ++ rowRest t)) = false →
      findIn ((lastRow s ++ t).splitOn '\n') = findIn rows) :
    findIn ((s ++ t).splitOn '\n') = findIn ((s ++ rowRest t).splitOn '\n' ++ rows) := by
  rw [splitOn_append s t, splitOn_append_row s (lineFeed_not_mem_rowRest t), List.append_assoc,
    findIn_append, findIn_append _ ([_] ++ rows), findIn_row (lineFeed_not_mem_lastRow s) other]
  rfl

end FileDirective

end CSharpTidy
