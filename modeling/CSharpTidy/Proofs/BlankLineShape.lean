import CSharpTidy.Proofs.SolidEnds
import CSharpTidy.Proofs.VisibleText

/- How many blank lines stand where in a tidied text. A text is looked at from its start up to the
   first thing that shows of a declaration or of a closing brace; the blank lines counted there are
   those that the spacing of the tree asks for. -/
namespace CSharpTidy

/-- The line ends in a text. A carriage return and a line feed behind it are one. -/
def lineEnds : List Char → Nat
  | [] => 0
  | '\r' :: '\n' :: rest => lineEnds rest + 1
  | c :: rest => (if isLineBreak c then 1 else 0) + lineEnds rest

/-- The blank lines at the end of a text. The first line end behind something that shows ends the
line of that, and no blank one. -/
def blankLines (s : List Char) : Nat :=
  let gap := s.rtakeWhile isVoid
  if gap.length = s.length then lineEnds gap else lineEnds gap - 1

variable {prior : Prior} {before w s v : List Char} {span : Span} {b : Block Decl} {ds : List Decl}
  {d : Decl} {ending : String} {Q : Site → Prop} {c : Char}

theorem lineEnds_cons_of_inline (h : isLineBreak c = false) (s : List Char) :
    lineEnds (c :: s) = lineEnds s := by
  rw [lineEnds.eq_def]
  split
  · rename_i eq
    cases eq
  · rename_i eq
    obtain ⟨rfl, -⟩ := List.cons.inj eq
    cases h
  · rename_i eq
    obtain ⟨rfl, rfl⟩ := List.cons.inj eq
    simp [h]

theorem lineEnds_inline_append (h : ∀ c ∈ v, isLineBreak c = false) (s : List Char) :
    lineEnds (v ++ s) = lineEnds s := by
  induction v with
  | nil => rfl
  | cons c v ih =>
    rw [List.forall_mem_cons] at h
    rw [List.cons_append, lineEnds_cons_of_inline h.1, ih h.2]

theorem lineEnds_of_inline (h : ∀ c ∈ v, isLineBreak c = false) : lineEnds v = 0 := by
  have := lineEnds_inline_append h []
  rwa [List.append_nil] at this

theorem lineEnds_append_inline (h : ∀ c ∈ v, isLineBreak c = false) (s : List Char) :
    lineEnds (s ++ v) = lineEnds s := by
  fun_induction lineEnds s with
  | case1 => exact lineEnds_of_inline h
  | case2 rest ih => rw [List.cons_append, List.cons_append, lineEnds, ih]
  | case3 c rest single ih =>
    rw [List.cons_append, lineEnds, ih]
    rintro more rfl eq
    cases rest with
    | nil =>
      rw [List.nil_append] at eq
      have breaks := h '\n' (by simp [eq])
      cases breaks
    | cons d rest =>
      obtain ⟨rfl, -⟩ := List.cons.inj eq
      exact single rest rfl rfl

theorem isLineBreak_of_isSpace (h : isSpace c) : isLineBreak c = false := by
  by_contra breaks
  simp only [isLineBreak, Bool.not_eq_false, Bool.or_eq_true, beq_iff_eq] at breaks
  rcases breaks with rfl | rfl <;> simp [isSpace, isLineBreak] at h

theorem lineEnds_append_spaces (h : ∀ c ∈ w, isSpace c) (s : List Char) :
    lineEnds (s ++ w) = lineEnds s :=
  lineEnds_append_inline (fun c mem => isLineBreak_of_isSpace (h c mem)) s

theorem lineEnds_spaces_append (h : ∀ c ∈ w, isSpace c) (s : List Char) :
    lineEnds (w ++ s) = lineEnds s :=
  lineEnds_inline_append (fun c mem => isLineBreak_of_isSpace (h c mem)) s

theorem IsTerminator.lineEnds (h : IsTerminator ending) :
    lineEnds ending.toList = 1 ∧ CSharpTidy.lineEnds (ending.toList ++ ending.toList) = 2 := by
  rcases h with rfl | rfl | rfl <;> exact ⟨rfl, rfl⟩

theorem blankLines_append {gap : List Char} (solid : EndsSolid s) (void : ∀ c ∈ gap, isVoid c) :
    blankLines (s ++ gap) = lineEnds gap - 1 := by
  obtain ⟨front, c, back, rfl, shows, inline⟩ := solid
  have blank : ∀ d ∈ back.rtakeWhile isVoid, isLineBreak d = false :=
    fun d mem => inline d ((List.rtakeWhile_suffix ..).subset mem)
  have tail : (front ++ c :: back ++ gap).rtakeWhile isVoid = back.rtakeWhile isVoid ++ gap := by
    have stops : (front ++ c :: back).reverse.takeWhile isVoid = back.reverse.takeWhile isVoid := by
      simpa using (dropWhile_append_cons shows back.reverse front.reverse).2
    rw [List.rtakeWhile, List.reverse_append, List.takeWhile_append_of_pos (by simpa using void),
      List.reverse_append, List.reverse_reverse, stops, List.rtakeWhile]
  have shorter : (back.rtakeWhile isVoid ++ gap).length ≠ (front ++ c :: back ++ gap).length := by
    have := (List.rtakeWhile_suffix isVoid back).length_le
    simp only [List.length_append, List.length_cons]
    omega
  rw [blankLines, tail]
  simp only [shorter, if_false, lineEnds_inline_append blank]

theorem blankLines_of_void (void : ∀ c ∈ s, isVoid c) : blankLines s = lineEnds s := by
  have whole : s.rtakeWhile isVoid = s := List.rtakeWhile_eq_self_iff.mpr void
  simp [blankLines, whole]

inductive BlockItem where
  | imported (d : Decl)
  | globalAttribute (d : Decl)
  | member (d : Decl)
  | closing (b : Block Decl)

namespace BlockItem

def leading : BlockItem → Span
  | .imported d | .globalAttribute d | .member d => d.leading
  | .closing b => b.closeLeading

def memberKind : BlockItem → Option DeclKind
  | .member d => some d.kind
  | _ => none

def print : BlockItem → List Char
  | .imported d | .globalAttribute d | .member d => d.print.toList
  | .closing b => (Span.text b.closeLeading ++ b.close).toList

end BlockItem

/-- What stands in front of an item: the header of the file, the opening of the block, or the item
before it. -/
inductive Prior where
  | header (span : Span)
  | opening (braced : Bool) (span : Span)
  | item (i : BlockItem)

/-- A place of a printed text in front of an item. -/
structure Site where
  before : List Char
  prior : Prior
  item : BlockItem

def Site.front (s : Site) : List Char :=
  s.before ++ (Span.text s.item.leading.blanksBefore).toList

def sitesFrom (before : List Char) (prior : Prior) : List BlockItem → List Site
  | [] => []
  | item :: rest => ⟨before, prior, item⟩ :: sitesFrom (before ++ item.print) (.item item) rest

def Block.items (b : Block Decl) : List BlockItem :=
  b.imports.map .imported ++ b.attributes.map .globalAttribute ++ b.members.map .member ++ [.closing b]

def Block.ownSites (before : List Char) (prior : Prior) (b : Block Decl) : List Site :=
  sitesFrom (before ++ (Span.text b.openTrailing).toList) prior b.items

mutual

def Decl.sites (before : List Char) : Decl → List Site
  | ⟨_, _, _, leading, text, block, _, _⟩ =>
      Block.sitesOption (before ++ (Span.text leading ++ text).toList) block

def Block.sitesOption (before : List Char) : Option (Block Decl) → List Site
  | none => []
  | some b => Block.sites before (.opening b.braced b.openTrailing) b

def Block.sites (before : List Char) (prior : Prior) : Block Decl → List Site
  | ⟨braced, openTrailing, imports, attributes, members, closeLeading, close⟩ =>
      Block.ownSites before prior
        ⟨braced, openTrailing, imports, attributes, members, closeLeading, close⟩ ++
        Decl.sitesAll (before ++ (Span.text openTrailing ++ Decl.printAll imports ++
          Decl.printAll attributes).toList) members

def Decl.sitesAll (before : List Char) : List Decl → List Site
  | [] => []
  | d :: rest => Decl.sites before d ++ Decl.sitesAll (before ++ d.print.toList) rest

end

def SourceFile.sites (file : SourceFile) : List Site :=
  file.root.sites (file.mark ++ (Span.text file.header).toList) (.header file.header)

def Decl.isOpen (d : Decl) : Bool :=
  d.block.any fun b => !b.braced

def Prior.isItem : Prior → Bool
  | .item _ => true
  | _ => false

def Prior.isBrace : Prior → Bool
  | .opening braced _ => braced
  | _ => false

def BlockItem.spacing (prior : Prior) : BlockItem → Spacing
  | .imported _ => if prior.isItem then .packed else .spaced
  | .globalAttribute _ => .free
  | .member d => if prior.isBrace then .packed else d.kind.spacing
  | .closing b => if b.braced then .packed else .free

def Span.linesBehind (ending : String) (span : Span) : Nat :=
  lineEnds ((Span.text span.blanksBehind).toList ++ ending.toList) - 1

/-- Whether the last piece of a span that is not blank shows something on its last line, as dead
code need not. -/
def Span.showsLast (span : Span) : Bool :=
  span.contentEnd.getLast?.any fun t => t.kind != .disabled

namespace Prior

/-- The blanks behind global attributes and other declarations are kept. -/
def keepsBlanks : Prior → Bool
  | .item (.globalAttribute _) => true
  | .item (.member d) => !d.kind.endsLine
  | .item (.closing _) => true
  | _ => false

/-- The blank lines behind what stands in front of an item, when a line end follows. There is one,
unless blanks are kept there. -/
def linesBehind (ending : String) : Prior → Option Nat
  | .header span =>
      if span.isEmpty then some 1
      else if span.showsLast then some (span.linesBehind ending) else none
  | .opening _ span => some (span.linesBehind ending)
  | .item (.imported _) => some 1
  | .item (.globalAttribute d) => some (d.trailing.linesBehind ending)
  | .item (.member d) =>
      if d.isOpen then none
      else if d.kind.endsLine then some 1 else some (d.trailing.linesBehind ending)
  | .item (.closing _) => none

end Prior

def Site.asked (ending : String) (s : Site) : Option Nat :=
  match s.item.spacing s.prior with
  | .free => none
  | .packed => if s.prior.keepsBlanks then none else some 0
  | .spaced => s.prior.linesBehind ending

def Shown (before : List Char) (span : Span) : Prop :=
  (∀ t ∈ span, t.Lexed) ∧
    ∃ s, before = s ++ (Span.text span.blanksBehind).toList ∧ EndsSolid s

theorem Shown.blankLines (h : Shown before span) (void : ∀ c ∈ w, isVoid c) :
    blankLines (before ++ w) = lineEnds ((Span.text span.blanksBehind).toList ++ w) - 1 := by
  obtain ⟨lexed, s, rfl, solid⟩ := h
  rw [List.append_assoc]
  refine blankLines_append solid (List.forall_mem_append.mpr ⟨?_, void⟩)
  exact Span.isVoid_text (fun t mem => lexed t (Span.blanksBehind_subset span t mem))
    Span.blanksBehind_blank

theorem Span.shown (lexed : ∀ t ∈ span, t.Lexed) (solid : EndsSolid s ∨ span.contentEnd ≠ [])
    (firm : ∀ t, span.contentEnd.getLast? = some t → EndsSolid t.text.toList) :
    Shown (s ++ (Span.text span).toList) span := by
  refine ⟨lexed, s ++ (Span.text span.contentEnd).toList, ?_, ?_⟩
  · rw [List.append_assoc, ← String.toList_append, ← Span.text_append,
      contentEnd_append_blanksBehind]
  · cases content : span.contentEnd using List.reverseRecOn with
    | nil => simpa using solid.resolve_right (by simp [content])
    | append_singleton init t =>
      have last : EndsSolid (Span.text [t]).toList := by
        simpa [Span.text] using firm t (by simp [content])
      rw [Span.text_append, String.toList_append, ← List.append_assoc]
      exact last.prepend _

theorem Span.contentEnd_last {span : Span} {t : Trivia} (h : span.contentEnd.getLast? = some t) :
    t ∈ span ∧ t.isBlank = false := by
  have inside := List.mem_of_getLast? h
  refine ⟨(List.rdropWhile_prefix _ _).subset inside, ?_⟩
  obtain ⟨init, eq⟩ := List.getLast?_eq_some_iff.mp h
  have nonempty : span.contentEnd ≠ [] := by simp [eq]
  have stops := List.rdropWhile_last_not Trivia.isBlank span nonempty
  have last : span.contentEnd.getLast nonempty = t := by simp [eq]
  simpa [contentEnd, ← last] using stops

theorem Span.Trails.shown (h : span.Trails) (solid : EndsSolid s) :
    Shown (s ++ (Span.text span).toList) span := by
  refine Span.shown h.lexed.pieces (.inl solid) fun t last => ?_
  obtain ⟨mem, content⟩ := contentEnd_last last
  exact h.firm t mem content

theorem Span.Trails.lineEnds_le (h : span.Trails) (spaces : ∀ c ∈ w, isSpace c) :
    lineEnds ((Span.text span.blanksBehind).toList ++ w) ≤ 1 := by
  rw [lineEnds_append_spaces spaces]
  cases ends : span.endsLine with
  | true =>
    obtain ⟨white, text, blanks, terminator, -, lexed⟩ := h.lexed.blanksBehind_of_endsLine ends
    have last : (Span.text [Trivia.lineEnd text]).toList = text.toList := by
      simp [Span.text, Trivia.lineEnd]
    rw [blanks, Span.text_append, String.toList_append, last,
      lineEnds_spaces_append (Span.isSpace_text lexed), terminator.lineEnds.1]
  | false =>
    have white := Span.isSpace_text (h.lexed.blanksBehind_of_inline ends)
    rw [lineEnds_of_inline fun c mem => isLineBreak_of_isSpace (white c mem)]
    omega

namespace Prior

/-- What is known of a text that ends with `prior`. -/
def Follows (before : List Char) : Prior → Prop
  | .header span => (span = [] → ∀ c ∈ before, isSpace c) ∧ (span.showsLast → Shown before span)
  | .opening _ span => Shown before span
  | .item (.imported d) | .item (.globalAttribute d) => Shown before d.trailing
  | .item (.member d) => d.isOpen = false → Shown before d.trailing
  | .item (.closing _) => True

def Ended (ending : String) : Prior → Prop
  | .opening _ span => span.Trails
  | .item (.imported d) => d.trailing.EndsOnce ending
  | .item (.member d) => d.kind.endsLine → d.trailing.EndsOnce ending
  | _ => True

def Enclosed : Prior → Prop
  | .header _ => False
  | .item (.member d) => d.isOpen = false
  | _ => True

end Prior

def BlockItem.Ahead (ending : String) (prior : Prior) (item : BlockItem) : Prop :=
  match item.spacing prior with
  | .free => True
  | .packed => prior.Enclosed ∧ ∀ c ∈ (Span.text item.leading.blanksBefore).toList, isSpace c
  | .spaced => ∃ w, (Span.text item.leading.blanksBefore).toList = ending.toList ++ w ∧
      ∀ c ∈ w, isSpace c

theorem Span.EndsOnce.text (h : span.EndsOnce ending) :
    (Span.text span.blanksBehind).toList = ending.toList := by
  rw [h]
  simp [Span.text, Trivia.lineEnd]

section
variable {ending : String} (terminator : IsTerminator ending)
include terminator

theorem Site.blankLines_packed {s : Site} (follows : s.prior.Follows s.before)
    (ended : s.prior.Ended ending) (enclosed : s.prior.Enclosed)
    (keeps : s.prior.keepsBlanks = false) (spaces : ∀ c ∈ w, isSpace c) :
    blankLines (s.before ++ w) = 0 := by
  have void : ∀ c ∈ w, isVoid c := fun c mem => isVoid_of_isSpace (spaces c mem)
  have once : ∀ {span : Span}, span.EndsOnce ending → Shown s.before span →
      blankLines (s.before ++ w) = 0 := by
    intro span blanks shown
    rw [shown.blankLines void, blanks.text, lineEnds_append_spaces spaces,
      terminator.lineEnds.1]
  obtain ⟨before, prior, item⟩ := s
  cases prior with
  | header span => cases enclosed
  | opening braced span =>
    have few := Span.Trails.lineEnds_le ended spaces
    rw [Shown.blankLines follows void]
    omega
  | item i =>
    cases i with
    | imported d => exact once ended follows
    | globalAttribute d => cases keeps
    | member d => exact once (ended (by simpa [Prior.keepsBlanks] using keeps)) (follows enclosed)
    | closing b => cases keeps

variable {n : Nat}

theorem Site.blankLines_spaced {s : Site} (follows : s.prior.Follows s.before)
    (ended : s.prior.Ended ending) (lines : s.prior.linesBehind ending = some n)
    (spaces : ∀ c ∈ w, isSpace c) : blankLines (s.before ++ (ending.toList ++ w)) = n := by
  have void : ∀ c ∈ ending.toList ++ w, isVoid c :=
    List.forall_mem_append.mpr ⟨terminator.isVoid, fun c mem => isVoid_of_isSpace (spaces c mem)⟩
  have kept : ∀ {span : Span}, Shown s.before span →
      blankLines (s.before ++ (ending.toList ++ w)) = span.linesBehind ending := by
    intro span shown
    rw [shown.blankLines void, ← List.append_assoc, lineEnds_append_spaces spaces]
    rfl
  have once : ∀ {span : Span}, span.EndsOnce ending → Shown s.before span →
      blankLines (s.before ++ (ending.toList ++ w)) = 1 := by
    intro span blanks shown
    rw [kept shown, Span.linesBehind, blanks.text, terminator.lineEnds.2]
  obtain ⟨before, prior, item⟩ := s
  cases prior with
  | header span =>
    simp only [Prior.linesBehind] at lines
    split at lines
    · rename_i empty
      cases lines
      have mark := follows.1 (List.isEmpty_iff.mp empty)
      have blank : ∀ c ∈ before, isVoid c := fun c mem => isVoid_of_isSpace (mark c mem)
      rw [blankLines_of_void (List.forall_mem_append.mpr ⟨blank, void⟩),
        lineEnds_spaces_append mark, lineEnds_append_spaces spaces, terminator.lineEnds.1]
    · split at lines
      · rename_i shows
        cases lines
        exact kept (follows.2 shows)
      · cases lines
  | opening braced span =>
    cases lines
    exact kept follows
  | item i =>
    cases i with
    | imported d =>
      cases lines
      exact once ended follows
    | globalAttribute d =>
      cases lines
      exact kept follows
    | member d =>
      simp only [Prior.linesBehind] at lines
      split at lines
      · cases lines
      · rename_i closed
        have shown := follows (by simpa using closed)
        split at lines
        · rename_i ends
          cases lines
          exact once (ended ends) shown
        · cases lines
          exact kept shown
    | closing b => cases lines

theorem Site.blankLines_front {s : Site} (follows : s.prior.Follows s.before)
    (ended : s.prior.Ended ending) (ahead : s.item.Ahead ending s.prior)
    (asked : s.asked ending = some n) : blankLines s.front = n := by
  unfold BlockItem.Ahead at ahead
  unfold Site.asked at asked
  cases spacing : s.item.spacing s.prior with
  | free => simp [spacing] at asked
  | packed =>
    simp only [spacing] at ahead asked
    split at asked
    · cases asked
    · rename_i keeps
      cases asked
      exact blankLines_packed terminator follows ended ahead.1 (by simpa using keeps) ahead.2
  | spaced =>
    simp only [spacing] at ahead asked
    obtain ⟨w, blanks, spaces⟩ := ahead
    rw [front, blanks]
    exact blankLines_spaced terminator follows ended asked spaces

end

theorem Span.spaces_blanksBefore (lexed : ∀ t ∈ span, t.Lexed) (packed : span.Packed) :
    ∀ c ∈ (Span.text span.blanksBefore).toList, isSpace c :=
  Span.isSpace_text fun t mem => ⟨lexed t (blanksBefore_subset span t mem), packed t mem⟩

theorem Span.packed_setIndent (indent : String) (h : span.stripLeading = span) :
    (setIndent indent span).Packed :=
  ((stripLeading_eq_self_iff _).mp (stripLeading_setIndent indent h)).1

theorem Span.Trails.sublist {sub : Span} (h : span.Trails) (le : sub.Sublist span) :
    sub.Trails := by
  have early : sub.dropLast.Sublist span.dropLast := by
    simpa [List.tail_reverse] using le.reverse.tail.reverse
  exact ⟨⟨fun t mem => h.lexed.pieces t (le.subset mem),
    fun t mem => h.lexed.inline t (early.subset mem)⟩, fun t mem => h.firm t (le.subset mem)⟩

theorem Span.Trails.stripUnless (h : span.Trails) (pinned : Bool) :
    (Span.stripUnless pinned span).Trails := by
  cases pinned with
  | true => exact h
  | false => exact h.sublist (stripRegionsFrom_sublist [] false 0 span)

namespace Decl

theorem respace_text (ending : String) (spacing : Spacing) (ends lineStart : Bool) (d : Decl) :
    (d.respace ending spacing ends lineStart).text = d.text ∧
      (d.respace ending spacing ends lineStart).block = d.block ∧
      (d.respace ending spacing ends lineStart).trailing = Span.endWhen ends ending d.trailing := by
  unfold respace reindent
  split
  · split <;> exact ⟨rfl, rfl, rfl⟩
  · exact ⟨rfl, rfl, rfl⟩

theorem respace_leading (ending : String) (spacing : Spacing) (ends lineStart : Bool)
    (lexed : d.Lexed) :
    (d.respace ending spacing ends lineStart).leading = spacing.apply ending d.leading ∨
      ∃ indent, (∀ c ∈ indent.toList, isSpace c) ∧
        (d.respace ending spacing ends lineStart).leading =
          Span.setIndent indent (spacing.apply ending d.leading) := by
  unfold respace reindent
  split
  · rename_i indent given
    split
    · exact .inr ⟨indent, lexed.indent indent given, rfl⟩
    · exact .inl rfl
  · exact .inl rfl

theorem spaces_respace_packed (ending : String) (ends lineStart : Bool) (lexed : d.Lexed) :
    ∀ c ∈ (Span.text (d.respace ending .packed ends lineStart).leading.blanksBefore).toList,
      isSpace c := by
  have strip := Span.lexed_stripLeading lexed.leading
  rcases respace_leading ending .packed ends lineStart lexed with same | ⟨indent, spaces, same⟩
  · rw [same]
    exact Span.spaces_blanksBefore strip (Span.packed_stripLeading _)
  · rw [same]
    exact Span.spaces_blanksBefore (Span.lexed_setIndent spaces strip)
      (Span.packed_setIndent indent (Span.stripLeading_stripLeading _))

theorem text_respace_spaced (ending : String) (ends lineStart : Bool) (lexed : d.Lexed) :
    ∃ w, (Span.text (d.respace ending .spaced ends lineStart).leading.blanksBefore).toList =
      ending.toList ++ w ∧ ∀ c ∈ w, isSpace c := by
  have strip := Span.lexed_stripLeading lexed.leading
  have line : ∀ span : Span, (Span.text (Span.blanksBefore (.lineEnd ending :: span))).toList =
      ending.toList ++ (Span.text span.blanksBefore).toList := by
    intro span
    rw [Span.blanksBefore, List.takeWhile_cons_of_pos rfl, Span.text_cons, String.toList_append]
    rfl
  rcases respace_leading ending .spaced ends lineStart lexed with same | ⟨indent, spaces, same⟩
  · rw [same, Spacing.apply_spaced, Span.oneLeading, line]
    exact ⟨_, rfl, Span.spaces_blanksBefore strip (Span.packed_stripLeading _)⟩
  · rw [same, Spacing.apply_spaced, Span.oneLeading, Span.setIndent_lineEnd_cons, line]
    exact ⟨_, rfl, Span.spaces_blanksBefore (Span.lexed_setIndent spaces strip)
      (Span.packed_setIndent indent (Span.stripLeading_stripLeading _))⟩

end Decl

section
variable {ending : String} (terminator : IsTerminator ending)
include terminator

theorem Span.trails_lineEnd : Span.Trails [.lineEnd ending] := by
  refine ⟨⟨?_, by simp⟩, by simp [Trivia.isBlank, Trivia.isEndOfLine, Trivia.lineEnd]⟩
  rw [List.forall_mem_singleton]
  exact Trivia.lexed_lineEnd terminator

theorem Span.Trails.endWhen (h : span.Trails) (ends : Bool) :
    (Span.endWhen ends ending span).Trails := by
  cases ends with
  | false => exact h
  | true =>
    have content : span.contentEnd.Trails := h.sublist (List.rdropWhile_prefix _ _).sublist
    have line := trails_lineEnd terminator
    rw [Span.endWhen, if_pos rfl, stripTrailing_eq]
    refine ⟨⟨List.forall_mem_append.mpr ⟨content.lexed.pieces, line.lexed.pieces⟩, ?_⟩,
      List.forall_mem_append.mpr ⟨content.firm, line.firm⟩⟩
    rw [List.dropLast_concat]
    intro t mem
    -- the last piece of the content is not blank, and no other piece ends a line
    cases contentEnd : span.contentEnd using List.reverseRecOn with
    | nil => simp [contentEnd] at mem
    | append_singleton init last =>
      rw [contentEnd, List.mem_append, List.mem_singleton] at mem
      rcases mem with early | rfl
      · exact content.lexed.inline t (by simpa [contentEnd] using early)
      · have shows := (@contentEnd_last span t (by simp [contentEnd])).2
        simp only [Trivia.isBlank, Bool.or_eq_false_iff] at shows
        exact shows.2

theorem Decl.Firm.respace (h : d.Firm) (spacing : Spacing) (ends lineStart : Bool) :
    (d.respace ending spacing ends lineStart).Firm := by
  obtain ⟨text, -, trailing⟩ := Decl.respace_text ending spacing ends lineStart d
  exact ⟨text ▸ h.text, trailing ▸ h.trailing.endWhen terminator ends⟩

end

theorem Decl.Firm.shown (h : d.Firm) (closes : ∀ a, d.block = some a → EndsSolid a.close.toList)
    (before : List Char) : Shown (before ++ d.print.toList) d.trailing := by
  have core : EndsSolid (d.text ++ Block.printOption d.block).toList := by
    cases body : d.block with
    | none => simpa [Block.printOption] using h.text
    | some a =>
      rw [Block.printOption, Block.print_eq, ← String.append_assoc, String.toList_append]
      exact (closes a body).prepend _
  have split : before ++ d.print.toList = before ++ (Span.text d.leading).toList ++
      (d.text ++ Block.printOption d.block).toList ++ (Span.text d.trailing).toList := by
    simp [Decl.print_eq]
  rw [split]
  exact h.trailing.shown (core.prepend _)

def Each (P : Prior → BlockItem → Prop) : Prior → List BlockItem → Prop
  | _, [] => True
  | prior, item :: rest => P prior item ∧ Each P (.item item) rest

def Prior.behind (prior : Prior) (items : List BlockItem) : Prior :=
  items.getLast?.elim prior .item

theorem Prior.behind_cons (prior : Prior) (item : BlockItem) (items : List BlockItem) :
    prior.behind (item :: items) = (Prior.item item).behind items := by
  cases items with
  | nil => rfl
  | cons next items =>
    obtain ⟨last, found⟩ := List.getLast?_isSome.mpr (List.cons_ne_nil next items) |> Option.isSome_iff_exists.mp
    simp [behind, List.getLast?_cons_cons, found]

namespace Each

variable {P : Prior → BlockItem → Prop}

theorem append {as bs : List BlockItem} (first : Each P prior as)
    (second : Each P (prior.behind as) bs) : Each P prior (as ++ bs) := by
  induction as generalizing prior with
  | nil => exact second
  | cons item as ih =>
    rw [Prior.behind_cons] at second
    exact ⟨first.1, ih first.2 second⟩

/-- What is known of the text in front of an item is passed on from item to item. -/
theorem forall_sites {F : List Char → Prior → Prop}
    (here : ∀ {before : List Char} {prior : Prior} {item : BlockItem}, F before prior →
      P prior item → Q ⟨before, prior, item⟩)
    (next : ∀ {prior : Prior} {item : BlockItem}, P prior item →
      ∀ before, F (before ++ item.print) (.item item)) {items : List BlockItem}
    (known : F before prior) (h : Each P prior items) :
    ∀ s ∈ sitesFrom before prior items, Q s := by
  induction items generalizing before prior with
  | nil => simp [sitesFrom]
  | cons item items ih =>
    exact List.forall_mem_cons.mpr ⟨here known h.1, ih (next h.1 before) h.2⟩

end Each

def Laid (ending : String) : Prior → List BlockItem → Prop :=
  Each fun prior item => item.Ahead ending prior ∧
    (∀ before, (Prior.item item).Follows (before ++ item.print)) ∧ (Prior.item item).Ended ending

theorem Laid.blankLines (terminator : IsTerminator ending) {items : List BlockItem}
    (h : Laid ending prior items) (follows : prior.Follows before) (ended : prior.Ended ending) :
    ∀ s ∈ sitesFrom before prior items, ∀ n, s.asked ending = some n → blankLines s.front = n :=
  Each.forall_sites (F := fun before prior => prior.Follows before ∧ prior.Ended ending)
    (fun known laid _ asked => Site.blankLines_front terminator known.1 known.2 laid.1 asked)
    (fun laid before => ⟨laid.2.1 before, laid.2.2⟩) ⟨follows, ended⟩ h

section
variable {ending : String} (terminator : IsTerminator ending)
include terminator

theorem import_behind (firm : d.Firm) (plain : d.block = none) (spacing : Spacing)
    (lineStart : Bool) :
    (∀ before, (Prior.item (.imported (d.respace ending spacing true lineStart))).Follows
      (before ++ (BlockItem.imported (d.respace ending spacing true lineStart)).print)) ∧
    (Prior.item (.imported (d.respace ending spacing true lineStart))).Ended ending := by
  obtain ⟨-, block, trailing⟩ := Decl.respace_text ending spacing true lineStart d
  refine ⟨(firm.respace terminator spacing true lineStart).shown (by simp [block, plain]), ?_⟩
  rw [Prior.Ended, trailing]
  exact Span.blanksBehind_stripTrailing ending d.trailing

theorem laid_imports (lexed : ∀ d ∈ ds, d.Lexed) (firm : ∀ d ∈ ds, d.Firm)
    (plain : ∀ d ∈ ds, d.block = none) (front : prior.isItem = false) (lineStart : Bool) :
    Laid ending prior
      ((Decl.reindentAll lineStart (Decl.spaceImports ending ds)).map .imported) := by
  have packed : ∀ ds : List Decl, (∀ d ∈ ds, d.Lexed) → (∀ d ∈ ds, d.Firm) →
      (∀ d ∈ ds, d.block = none) → ∀ d, Laid ending (.item (.imported d))
        ((ds.map (Decl.respace ending .packed true true)).map .imported) := by
    intro ds
    induction ds with
    | nil => exact fun _ _ _ _ => trivial
    | cons d rest ih =>
      intro lexed firm plain last
      rw [List.forall_mem_cons] at lexed firm plain
      exact ⟨⟨⟨trivial, Decl.spaces_respace_packed ending true true lexed.1⟩,
        import_behind terminator firm.1 plain.1 .packed true⟩, ih lexed.2 firm.2 plain.2 _⟩
  rw [Decl.reindentAll_spaceImports]
  cases ds with
  | nil => trivial
  | cons d rest =>
    rw [List.forall_mem_cons] at lexed firm plain
    refine ⟨⟨?_, import_behind terminator firm.1 plain.1 .spaced lineStart⟩,
      packed rest lexed.2 firm.2 plain.2 _⟩
    simpa [BlockItem.Ahead, BlockItem.spacing, BlockItem.leading, front] using
      Decl.text_respace_spaced ending true lineStart lexed.1

omit terminator in
theorem laid_attributes (firm : ∀ d ∈ ds, d.Firm) (plain : ∀ d ∈ ds, d.block = none) (prior : Prior)
    (lineStart : Bool) :
    Laid ending prior ((Decl.reindentAll lineStart ds).map .globalAttribute) := by
  induction ds generalizing prior lineStart with
  | nil => trivial
  | cons d rest ih =>
    rw [List.forall_mem_cons] at firm plain
    obtain ⟨text, block, trailing⟩ := Decl.respace_text "" .free false lineStart d
    rw [Decl.respace_free] at text block trailing
    have firmly : (d.reindent lineStart).Firm := ⟨text ▸ firm.1.text, trailing ▸ firm.1.trailing⟩
    exact ⟨⟨trivial, firmly.shown (by simp [block, plain.1]), trivial⟩, ih firm.2 plain.2 _ _⟩

structure Settled (braced : Bool) (ds : List Decl) : Prop where
  lexed : ∀ d ∈ ds, d.Lexed
  firm : ∀ d ∈ ds, d.Firm
  closes : ∀ d ∈ ds, ∀ a, d.block = some a → a.braced → EndsSolid a.close.toList
  closed : braced → ∀ d ∈ ds, d.isOpen = false
  fields : braced = false → ∀ d ∈ ds, d.kind ≠ .field

omit terminator in
theorem Decl.isOpen_eq_false_iff (d : Decl) :
    d.isOpen = false ↔ ∀ a, d.block = some a → a.braced := by
  unfold isOpen
  cases d.block <;> simp

theorem member_behind (firm : d.Firm)
    (closes : ∀ a, d.block = some a → a.braced → EndsSolid a.close.toList) (spacing : Spacing)
    (lineStart : Bool) :
    (∀ before, (Prior.item (.member (d.respace ending spacing d.kind.endsLine lineStart))).Follows
      (before ++ (BlockItem.member (d.respace ending spacing d.kind.endsLine lineStart)).print)) ∧
    (Prior.item (.member (d.respace ending spacing d.kind.endsLine lineStart))).Ended ending := by
  obtain ⟨-, block, trailing⟩ := Decl.respace_text ending spacing d.kind.endsLine lineStart d
  refine ⟨fun before closed => ?_, fun ends => ?_⟩
  · rw [Decl.isOpen_eq_false_iff, block] at closed
    refine (firm.respace terminator spacing _ lineStart).shown (fun a body => ?_) before
    rw [block] at body
    exact closes a body (closed a body)
  · rw [Decl.respace_kind] at ends
    rw [trailing, ends]
    exact Span.blanksBehind_stripTrailing ending d.trailing

theorem laid_members {braced : Bool} (h : Settled braced ds) (opens : prior.isBrace → braced)
    (enclosed : braced → prior.Enclosed) (lineStart : Bool) :
    Laid ending prior ((Decl.reindentAll lineStart
      (Decl.spaceMembers ending prior.isBrace ds)).map .member) := by
  induction ds generalizing prior lineStart with
  | nil => trivial
  | cons d rest ih =>
    obtain ⟨lexed, firm, closes, closed, fields⟩ := h
    simp only [List.forall_mem_cons] at lexed firm closes closed fields
    have behind := member_behind terminator firm.1 closes.1
      (if prior.isBrace then .packed else d.kind.spacing) lineStart
    have others : Settled braced rest :=
      ⟨lexed.2, firm.2, closes.2, fun inBraces => (closed inBraces).2,
        fun unbraced => (fields unbraced).2⟩
    rw [Decl.reindentAll_spaceMembers_cons, List.map_cons]
    refine ⟨⟨?_, behind⟩, ih others (fun brace => by cases brace) (fun inBraces => ?_) _⟩
    · have spacing : (BlockItem.member (d.respace ending
          (if prior.isBrace then .packed else d.kind.spacing) d.kind.endsLine lineStart)).spacing
            prior = if prior.isBrace then .packed else d.kind.spacing := by
        rw [BlockItem.spacing, Decl.respace_kind]
      unfold BlockItem.Ahead
      rw [spacing]
      cases asked : (if prior.isBrace then Spacing.packed else d.kind.spacing) with
      | free => trivial
      | packed =>
        refine ⟨enclosed ?_, Decl.spaces_respace_packed ending _ lineStart lexed.1⟩
        by_contra unbraced
        have outside : prior.isBrace = false := by simpa using mt opens unbraced
        have kind := (fields (by simpa using unbraced)).1
        rw [outside] at asked
        cases named : d.kind <;> simp_all [DeclKind.spacing]
      | spaced => exact Decl.text_respace_spaced ending _ lineStart lexed.1
    · obtain ⟨-, block, -⟩ := Decl.respace_text ending
        (if prior.isBrace then .packed else d.kind.spacing) d.kind.endsLine lineStart d
      rw [Prior.Enclosed, Decl.isOpen, block]
      exact (closed inBraces).1

omit terminator in
theorem Prior.isBrace_behind (prior : Prior) (items : List BlockItem) :
    (prior.behind items).isBrace = (prior.isBrace && items.isEmpty) := by
  cases items using List.reverseRecOn with
  | nil => simp [behind]
  | append_singleton init i => simp [behind, isBrace]

omit terminator in
theorem Prior.Enclosed.behind (h : prior.Enclosed) {items : List BlockItem}
    (each : ∀ i ∈ items, (Prior.item i).Enclosed) : (prior.behind items).Enclosed := by
  cases items using List.reverseRecOn with
  | nil => exact h
  | append_singleton init i => simpa [Prior.behind] using each i (by simp)

omit terminator in
theorem Decl.forall_mem_spaceMembers {P : Decl → Prop}
    (each : ∀ d ∈ ds, ∀ spacing ends lineStart, P (d.respace ending spacing ends lineStart))
    (packed lineStart : Bool) :
    ∀ d ∈ reindentAll lineStart (spaceMembers ending packed ds), P d := by
  induction ds generalizing packed lineStart with
  | nil => simp [spaceMembers, reindentAll]
  | cons d rest ih =>
    rw [List.forall_mem_cons] at each
    rw [reindentAll_spaceMembers_cons, List.forall_mem_cons]
    exact ⟨each.1 .., ih each.2 _ _⟩

theorem Block.Firm.laid (own : b.Firm)
    (closes : ∀ d ∈ b.members, ∀ a, d.block = some a → a.braced → EndsSolid a.close.toList)
    (front : prior.isItem = false) (brace : prior.isBrace = b.braced)
    (enclosed : b.braced → prior.Enclosed) : Laid ending prior (b.space ending).items := by
  obtain ⟨lexed, -, firm, -, nested, -⟩ := own
  obtain ⟨importsCarried, attributesCarried, -⟩ := space_carried ending b
  have decls := lexed.decls
  have plain := lexed.plain
  simp only [Block.decls, List.forall_mem_append] at decls firm plain
  have closed : b.braced → ∀ d ∈ b.members, d.isOpen = false := fun inBraces d mem =>
    d.isOpen_eq_false_iff.mpr (nested.braced inBraces d mem)
  have settled : Settled b.braced b.members := ⟨decls.2, firm.2, closes, closed, nested.fields⟩
  have shape := space_eq ending b
  -- the prior of the first attribute, of the first member and of the closing brace
  let atAttributes := prior.behind ((b.space ending).imports.map .imported)
  let atMembers := atAttributes.behind ((b.space ending).attributes.map .globalAttribute)
  have brace' : atMembers.isBrace = (b.braced && b.imports.isEmpty && b.attributes.isEmpty) := by
    simp only [atMembers, atAttributes, Prior.isBrace_behind, List.isEmpty_map, brace,
      importsCarried.isEmpty, attributesCarried.isEmpty]
  have enclosed' : b.braced → atMembers.Enclosed := fun inBraces =>
    ((enclosed inBraces).behind (by simp [Prior.Enclosed])).behind (by simp [Prior.Enclosed])
  simp only [items, List.append_assoc]
  refine Each.append ?_ (.append ?_ (.append ?_ ⟨⟨?_, fun _ => trivial, trivial⟩, trivial⟩))
  · rw [congrArg imports shape]
    exact laid_imports terminator decls.1.1 firm.1.1 plain.1 front b.startsLine
  · rw [congrArg attributes shape]
    exact laid_attributes firm.1.2 plain.2 _ _
  · have laid : ∀ lineStart, Laid ending atMembers ((Decl.reindentAll lineStart
        (Decl.spaceMembers ending atMembers.isBrace b.members)).map .member) :=
      laid_members terminator settled (fun opens => by simp_all) enclosed'
    rw [brace'] at laid
    rw [congrArg Block.members shape]
    exact laid _
  · unfold BlockItem.Ahead
    simp only [BlockItem.spacing, congrArg braced shape]
    cases inBraces : b.braced with
    | false => trivial
    | true =>
      refine ⟨(enclosed' inBraces).behind ?_, ?_⟩
      · rw [List.forall_mem_map, congrArg Block.members shape]
        refine Decl.forall_mem_spaceMembers (fun d mem spacing ends lineStart => ?_) _ _
        rw [Prior.Enclosed, Decl.isOpen, (Decl.respace_text ending spacing ends lineStart d).2.1]
        exact closed inBraces d mem
      · have strip := Span.lexed_stripLeading lexed.closeLeading
        simp only [BlockItem.leading, congrArg closeLeading shape, inBraces, if_true]
        exact Span.spaces_blanksBefore strip (Span.packed_stripLeading _)

end

inductive Block.SpacedAll (ending : String) : Block Decl → Prop
  | intro {b : Block Decl} (own : b.Firm)
      (bodies : ∀ d ∈ b.members, ∀ a, d.block = some a → SpacedAll ending a) :
      SpacedAll ending (b.space ending)

theorem Decl.tidyBody_eq (roots : List String) (ending : String) (d : Decl) :
    d.tidyBody roots ending =
      { d with block := d.block.map fun a => (a.reorganize roots).normalize ending } := by
  simp only [tidyBody, mapBlocks_eq, Option.map_map]
  rfl

theorem Decl.Lexed.tidyBody (h : d.Lexed) (roots : List String) (ending : String) :
    (d.tidyBody roots ending).Lexed :=
  (h.mapBlocks _).mapBlocks _

theorem Decl.Firm.tidyBody (h : d.Firm) (roots : List String) (ending : String) :
    (d.tidyBody roots ending).Firm := by
  rw [Decl.tidyBody_eq]
  exact ⟨h.text, h.trailing⟩

theorem Decl.Firm.stripUnless (h : d.Firm) (pinned : Bool) : (d.stripUnless pinned).Firm :=
  ⟨h.text, h.trailing.stripUnless pinned⟩

namespace Block

theorem braced_tidy (roots : List String) (ending : String) (b : Block Decl) :
    ((b.reorganize roots).normalize ending).braced = b.braced := by
  rw [normalize_reorganize_sorted]
  rfl

theorem Firm.arranged (own : b.Firm) (roots : List String) (ending : String) : Block.Firm { b with
      openTrailing := Span.stripUnless b.membersGuarded b.openTrailing
      imports := (sortUnless b.importsGuarded (Decl.importLE roots) b.imports).map
        (Decl.stripUnless b.membersGuarded)
      attributes := b.attributes.map (Decl.stripUnless b.membersGuarded)
      members := (sortUnless b.membersGuarded Decl.memberLE b.members).map fun d =>
        (d.tidyBody roots ending).stripUnless b.membersGuarded
      closeLeading := Span.stripUnless b.membersGuarded b.closeLeading } := by
  obtain ⟨⟨openLexed, closeLexed, lexed, plain⟩, opening, firm, close, nested, inline, opens⟩ := own
  simp only [Block.decls, List.forall_mem_append] at lexed firm plain inline
  have imports : ∀ d ∈ sortUnless b.importsGuarded (Decl.importLE roots) b.imports,
      d ∈ b.imports := fun d => (sortUnless_perm ..).mem_iff.mp
  have members : ∀ d ∈ sortUnless b.membersGuarded Decl.memberLE b.members,
      d ∈ b.members := fun d => (sortUnless_perm ..).mem_iff.mp
  refine ⟨⟨Span.lexed_stripUnless _ openLexed, Span.lexed_stripUnless _ closeLexed, ?_, ?_⟩,
    opening.stripUnless _, ?_, close, ⟨fun inBraces => ?_, fun unbraced => ?_⟩, ?_, ?_⟩
  · simp only [Block.decls, List.forall_mem_append, List.forall_mem_map]
    exact ⟨⟨fun d mem => (lexed.1.1 d (imports d mem)).stripUnless _,
      fun d mem => (lexed.1.2 d mem).stripUnless _⟩,
      fun d mem => ((lexed.2 d (members d mem)).tidyBody roots ending).stripUnless _⟩
  · simp only [List.forall_mem_append, List.forall_mem_map]
    exact ⟨fun d mem => plain.1 d (imports d mem), plain.2⟩
  · simp only [Block.decls, List.forall_mem_append, List.forall_mem_map]
    exact ⟨⟨fun d mem => (firm.1.1 d (imports d mem)).stripUnless _,
      fun d mem => (firm.1.2 d mem).stripUnless _⟩,
      fun d mem => ((firm.2 d (members d mem)).tidyBody roots ending).stripUnless _⟩
  · simp only [List.forall_mem_map]
    intro d mem a body
    rw [Decl.tidyBody_eq] at body
    obtain ⟨inner, found, rfl⟩ := Option.map_eq_some_iff.mp body
    rw [braced_tidy]
    exact nested.braced inBraces d (members d mem) inner found
  · simp only [List.forall_mem_map]
    intro d mem
    rw [Decl.tidyBody_eq]
    exact nested.fields unbraced d (members d mem)
  · have flush : ∀ {d : Decl}, (d.lineIndent ≠ none → d.leading = []) →
        d.lineIndent ≠ none → Span.stripUnless b.membersGuarded d.leading = [] := by
      intro d empty indented
      rw [empty indented]
      cases b.membersGuarded <;> rfl
    simp only [Block.decls, List.forall_mem_append, List.forall_mem_map]
    refine ⟨⟨fun d mem => flush (inline.1.1 d (imports d mem)),
      fun d mem => flush (inline.1.2 d mem)⟩, fun d mem => ?_⟩
    rw [Decl.tidyBody_eq]
    exact flush (inline.2 d (members d mem))
  · simp only [List.forall_mem_map]
    intro d mem a body unbraced
    rw [Decl.tidyBody_eq] at body ⊢
    obtain ⟨inner, found, rfl⟩ := Option.map_eq_some_iff.mp body
    rw [braced_tidy] at unbraced
    exact opens d (members d mem) inner found unbraced

theorem FirmAll.spacedAll (h : b.FirmAll) (roots : List String) (ending : String) :
    ((b.reorganize roots).normalize ending).SpacedAll ending := by
  induction h with
  | @intro b own bodies ih =>
    rw [normalize_reorganize_sorted]
    refine .intro (own.arranged roots ending) ?_
    simp only [List.forall_mem_map]
    intro d mem a body
    rw [Decl.tidyBody_eq] at body
    obtain ⟨inner, found, rfl⟩ := Option.map_eq_some_iff.mp body
    exact ih d ((sortUnless_perm ..).mem_iff.mp mem) inner found

theorem SpacedAll.frame (terminator : IsTerminator ending) (h : b.SpacedAll ending) :
    b.openTrailing.Trails ∧ (b.braced → EndsSolid b.close.toList) := by
  obtain ⟨own, -⟩ := h
  refine ⟨?_, own.close⟩
  rw [space_eq]
  simp only [spaceOpening]
  split
  · exact Span.trails_lineEnd terminator
  · exact own.opening

end Block

theorem Block.sites_eq (before : List Char) (prior : Prior) (b : Block Decl) :
    b.sites before prior = b.ownSites before prior ++
      Decl.sitesAll (before ++ (Span.text b.openTrailing ++ Decl.printAll b.imports ++
        Decl.printAll b.attributes).toList) b.members := by
  cases b
  rfl

theorem Decl.forall_sitesAll (firm : ∀ d ∈ ds, d.Firm)
    (trails : ∀ d ∈ ds, ∀ a, d.block = some a → a.openTrailing.Trails)
    (bodies : ∀ d ∈ ds, ∀ a, d.block = some a → ∀ before,
      Shown (before ++ (Span.text a.openTrailing).toList) a.openTrailing →
      ∀ s ∈ a.sites before (.opening a.braced a.openTrailing), Q s) (before : List Char) :
    ∀ s ∈ sitesAll before ds, Q s := by
  induction ds generalizing before with
  | nil => simp [sitesAll]
  | cons d rest ih =>
    rw [List.forall_mem_cons] at firm trails bodies
    rw [sitesAll, List.forall_mem_append]
    refine ⟨?_, ih firm.2 trails.2 bodies.2 _⟩
    obtain ⟨kind, visibility, key, leading, text, block, trailing, lineIndent⟩ := d
    cases block with
    | none => simp [sites, Block.sitesOption]
    | some a =>
      rw [sites, Block.sitesOption]
      refine bodies.1 a rfl _ ((trails.1 a rfl).shown ?_)
      rw [String.toList_append, ← List.append_assoc]
      exact firm.1.text.prepend _

section
variable {ending : String} (terminator : IsTerminator ending)
include terminator

theorem Block.SpacedAll.forall_sites {R : List Char → Prior → Block Decl → Prop}
    (inner : ∀ {before : List Char} {a : Block Decl}, a.openTrailing.Trails →
      Shown (before ++ (Span.text a.openTrailing).toList) a.openTrailing →
      R before (.opening a.braced a.openTrailing) a)
    (each : ∀ {b : Block Decl} {before : List Char} {prior : Prior}, b.Firm →
      (∀ d ∈ b.members, ∀ a, d.block = some a → a.braced → EndsSolid a.close.toList) →
      R before prior (b.space ending) → ∀ s ∈ (b.space ending).ownSites before prior, Q s)
    (h : b.SpacedAll ending) (known : R before prior b) : ∀ s ∈ b.sites before prior, Q s := by
  induction h generalizing before prior with
  | @intro b own bodies ih =>
    have closes : ∀ d ∈ b.members, ∀ a, d.block = some a → a.braced → EndsSolid a.close.toList :=
      fun d mem a body => ((bodies d mem a body).frame terminator).2
    rw [Block.sites_eq, List.forall_mem_append]
    have members : ∀ d ∈ (b.space ending).members, d.Firm ∧ ∀ a, d.block = some a →
        a.openTrailing.Trails ∧ ∃ e ∈ b.members, e.block = some a := by
      rw [congrArg Block.members (space_eq ending b)]
      refine Decl.forall_mem_spaceMembers (fun d mem spacing ends lineStart => ?_) _ _
      obtain ⟨-, block, -⟩ := Decl.respace_text ending spacing ends lineStart d
      refine ⟨(own.decls d (List.mem_append_right _ mem)).respace terminator .., fun a body => ?_⟩
      rw [block] at body
      exact ⟨((bodies d mem a body).frame terminator).1, d, mem, body⟩
    refine ⟨each own closes known, Decl.forall_sitesAll (fun d mem => (members d mem).1)
      (fun d mem a body => ((members d mem).2 a body).1) (fun d mem a body before shown => ?_) _⟩
    obtain ⟨trails, e, found, same⟩ := (members d mem).2 a body
    exact ih e found a same (inner trails shown)

theorem Block.SpacedAll.blankLines (h : b.SpacedAll ending)
    (follows : prior.Follows (before ++ (Span.text b.openTrailing).toList))
    (ended : prior.Ended ending) (front : prior.isItem = false) (brace : prior.isBrace = b.braced)
    (enclosed : b.braced → prior.Enclosed) :
    ∀ s ∈ b.sites before prior, ∀ n, s.asked ending = some n → blankLines s.front = n :=
  h.forall_sites terminator
    (R := fun before prior b => prior.Follows (before ++ (Span.text b.openTrailing).toList) ∧
      prior.Ended ending ∧ prior.isItem = false ∧ prior.isBrace = b.braced ∧
        (b.braced → prior.Enclosed))
    (fun trails shown => ⟨shown, trails, rfl, rfl, fun _ => trivial⟩)
    (fun own closes ⟨follows, ended, front, brace, enclosed⟩ =>
      (own.laid terminator closes front brace enclosed).blankLines terminator follows ended)
    ⟨follows, ended, front, brace, enclosed⟩

end

theorem BlockItem.leading_print (item : BlockItem) :
    (Span.text item.leading.blanksBefore).toList <+: item.print := by
  have front : ∀ (span : Span) (s : String),
      (Span.text span.blanksBefore).toList <+: (Span.text span ++ s).toList := by
    intro span s
    conv => rhs; rw [← Span.blanksBefore_append_content span]
    rw [Span.text_append, String.append_assoc, String.toList_append]
    exact List.prefix_append ..
  cases item with
  | closing b => exact front ..
  | _ =>
    simp only [leading, print, Decl.print_eq, String.append_assoc]
    exact front ..

def Site.through (s : Site) : List Char :=
  s.before ++ s.item.print

theorem Site.front_through (s : Site) : s.front <+: s.through :=
  (List.prefix_append_right_inj s.before).mpr s.item.leading_print

theorem sitesFrom_through {items : List BlockItem} :
    ∀ s ∈ sitesFrom before prior items, s.through <+: before ++ items.flatMap BlockItem.print := by
  induction items generalizing before prior with
  | nil => simp [sitesFrom]
  | cons item items ih =>
    rw [sitesFrom, List.forall_mem_cons, List.flatMap_cons, ← List.append_assoc]
    exact ⟨List.prefix_append .., ih⟩

theorem Block.items_print (b : Block Decl) :
    (Span.text b.openTrailing).toList ++ b.items.flatMap BlockItem.print = b.print.toList := by
  have all : ∀ (make : Decl → BlockItem) (ds : List Decl), (∀ d, (make d).print = d.print.toList) →
      (ds.map make).flatMap BlockItem.print = (Decl.printAll ds).toList := by
    intro make ds same
    induction ds with
    | nil => rfl
    | cons d rest ih =>
      rw [List.map_cons, List.flatMap_cons, same, ih, Decl.printAll, String.toList_append]
  simp only [items, List.flatMap_append, List.flatMap_cons, List.flatMap_nil, List.append_nil]
  rw [all .imported _ fun _ => rfl, all .globalAttribute _ fun _ => rfl, all .member _ fun _ => rfl,
    Block.print_eq]
  simp [BlockItem.print]

mutual

theorem Decl.sites_through (before : List Char) : (d : Decl) →
    ∀ s ∈ d.sites before, s.through <+: before ++ d.print.toList
  | ⟨kind, visibility, key, leading, text, block, trailing, lineIndent⟩ => by
    intro s mem
    have inner := Block.sitesOption_through (before ++ (Span.text leading ++ text).toList) block s mem
    refine inner.trans ⟨(Span.text trailing).toList, ?_⟩
    simp [Decl.print]

theorem Block.sitesOption_through (before : List Char) : (block : Option (Block Decl)) →
    ∀ s ∈ Block.sitesOption before block, s.through <+: before ++ (Block.printOption block).toList
  | none => by simp [Block.sitesOption]
  | some b => Block.sites_through before _ b

theorem Block.sites_through (before : List Char) (prior : Prior) : (b : Block Decl) →
    ∀ s ∈ b.sites before prior, s.through <+: before ++ b.print.toList
  | ⟨braced, openTrailing, imports, attributes, members, closeLeading, close⟩ => by
    rw [Block.sites, List.forall_mem_append]
    refine ⟨fun s mem => ?_, fun s mem => ?_⟩
    · have own := sitesFrom_through s mem
      rwa [List.append_assoc, Block.items_print] at own
    · refine (Decl.sitesAll_through _ members s mem).trans ⟨(Span.text closeLeading ++ close).toList, ?_⟩
      simp [Block.print]

theorem Decl.sitesAll_through (before : List Char) : (ds : List Decl) →
    ∀ s ∈ Decl.sitesAll before ds, s.through <+: before ++ (Decl.printAll ds).toList
  | [] => by simp [Decl.sitesAll]
  | d :: rest => by
    rw [Decl.sitesAll, List.forall_mem_append, Decl.printAll, String.toList_append,
      ← List.append_assoc]
    exact ⟨fun s mem => (Decl.sites_through before d s mem).trans (List.prefix_append ..),
      Decl.sitesAll_through _ rest⟩

end

theorem Block.sites_front (before : List Char) (prior : Prior) (b : Block Decl) :
    ∀ s ∈ b.sites before prior, s.front <+: before ++ b.print.toList :=
  fun s mem => s.front_through.trans (b.sites_through before prior s mem)

namespace SourceFile

variable {file : SourceFile}

theorem Firm.header_follows (h : file.Firm) (roots : List String) (ending : String) :
    (Prior.header ((file.reorganize roots).normalize ending).header).Follows
      (((file.reorganize roots).normalize ending).mark ++
        (Span.text ((file.reorganize roots).normalize ending).header).toList) := by
  have kept : ∀ t ∈ ((file.reorganize roots).normalize ending).header, t.Lexed ∧ t.Firm := by
    intro t mem
    have header : ((file.reorganize roots).normalize ending).header =
        Span.stripUnless file.root.membersGuarded file.header := rfl
    rw [header] at mem
    cases guarded : file.root.membersGuarded with
    | true => exact h.header t (by simpa [guarded] using mem)
    | false =>
      rw [guarded] at mem
      exact h.header t ((Span.stripRegionsFrom_sublist [] false 0 file.header).subset mem)
  refine ⟨fun none => ?_, fun shows => ?_⟩
  · rw [none]
    unfold mark
    split <;> simp [Span.text, isSpace, CSharpTidy.byteOrderMark]
  · unfold Span.showsLast at shows
    refine Span.shown (fun t mem => (kept t mem).1) (.inr ?_) fun t last => ?_
    · rintro none
      simp [none] at shows
    · obtain ⟨mem, content⟩ := Span.contentEnd_last last
      exact (kept t mem).2 content (by simpa [last] using shows)

theorem Firm.opening_tidied (firm : file.Firm) (roots : List String) (ending : String) :
    ((file.reorganize roots).normalize ending).root.openTrailing = [] := by
  have none : Span.stripUnless file.root.membersGuarded file.root.openTrailing = [] := by
    rw [firm.openTrailing]
    cases file.root.membersGuarded <;> rfl
  change ((file.root.reorganize roots).normalize ending).openTrailing = []
  rw [Block.normalize_reorganize_sorted, Block.space_eq]
  simp [Block.spaceOpening, none, firm.braced]

/-- In front of each import, member and closing brace of a tidied file, its text has as many blank
lines as are asked for there. -/
theorem tidy_blankLines {source : List Char} {symbols : List String} {file : SourceFile}
    (h : parse source symbols = .ok file) (roots : List String) {ending : String}
    (terminator : IsTerminator ending) :
    ∀ s ∈ ((file.reorganize roots).normalize ending).sites,
      s.front <+: ((file.reorganize roots).normalize ending).print.toList ∧
        ∀ n, s.asked ending = some n → blankLines s.front = n := by
  have firm := parse_firm h
  have tidied := firm.root.spacedAll roots ending
  have braced := file.root.braced_tidy roots ending
  rw [firm.braced] at braced
  have opening : ((file.root.reorganize roots).normalize ending).openTrailing = [] :=
    firm.opening_tidied roots ending
  have follows := firm.header_follows roots ending
  intro s mem
  have ended : (Prior.header ((file.reorganize roots).normalize ending).header).Ended ending := trivial
  refine ⟨?_, tidied.blankLines terminator ?_ ended rfl braced.symm (by simp [braced]) s mem⟩
  · have front := Block.sites_front _ _ _ s mem
    rw [print_toList, body, String.toList_append, ← List.append_assoc]
    exact front
  · rw [opening]
    simpa [Span.text] using follows

/-- Two imports, a class, a field, a method and the brace behind them. -/
theorem tidy_blankLines_class :
    let source := "#pragma p\nusing B;\n\nusing A;\nclass C \x7b\n#pragma q\n\nint x; void M() \x7b \x7d\n\n\x7d".toList
    ∃ file, parse source [] = .ok file ∧
      ((file.reorganize ["System"]).normalize "\n").sites.map (Site.asked "\n") =
        [some 1, some 0, some 1, none, some 0, some 1, some 0] ∧
      ∀ s ∈ ((file.reorganize ["System"]).normalize "\n").sites, ∀ n,
        s.asked "\n" = some n → blankLines s.front = n := by
  intro source
  have asked : (parse source []).toOption.map (fun file =>
      ((file.reorganize ["System"]).normalize "\n").sites.map (Site.asked "\n")) =
      some [some 1, some 0, some 1, none, some 0, some 1, some 0] := by
    decide +kernel
  obtain ⟨file, read, sites⟩ := Option.map_eq_some_iff.mp asked
  have parsed := eq_ok_of_toOption read
  exact ⟨file, parsed, sites,
    fun s mem => (tidy_blankLines parsed ["System"] (.inl rfl) s mem).2⟩

/-- Blanks stay behind a global attribute, and so no blank line comes before the class. -/
theorem blankLines_behind_attribute :
    let source := "[assembly: A] class C \x7b \x7d\n".toList
    ∃ file, parse source [] = .ok file ∧
      ∃ s ∈ ((file.reorganize ["System"]).normalize "\n").sites,
        s.item.memberKind = some (.container .classBody) ∧ s.prior.isBrace = false ∧
          blankLines s.front = 0 := by
  intro source
  have lines : (parse source []).toOption.map (fun file =>
      ((file.reorganize ["System"]).normalize "\n").sites.map fun s =>
        (s.item.memberKind, s.prior.isBrace, blankLines s.front)) =
      some [(none, false, 0), (some (.container .classBody), false, 0), (none, false, 0),
        (none, true, 0)] := by
    decide +kernel
  obtain ⟨file, read, sites⟩ := Option.map_eq_some_iff.mp lines
  have unspaced : (some (.container .classBody), false, 0) ∈
      ((file.reorganize ["System"]).normalize "\n").sites.map
        fun s => (s.item.memberKind, s.prior.isBrace, blankLines s.front) := by
    simp [sites]
  obtain ⟨s, mem, shape⟩ := List.mem_map.mp unspaced
  simp only [Prod.mk.injEq] at shape
  exact ⟨file, eq_ok_of_toOption read, s, mem, shape⟩

end SourceFile

end CSharpTidy
