import CSharpTidy.Proofs.LexedTree
import CSharpTidy.Proofs.SecondRun
import CSharpTidy.Proofs.TidyTwice
import Mathlib.Algebra.BigOperators.Group.List.Basic
import Mathlib.Algebra.Order.Group.Multiset
import Mathlib.Tactic.Abel

/- Organizing a text loses nothing that can be seen but region markers. Visible characters are
   counted with multiplicity, so that declarations may trade places, and the markers that go are
   those of the blocks that no directive pins. -/
namespace CSharpTidy

def isVisible (c : Char) : Bool :=
  !Text.isBlank c && c != byteOrderMark

def visible (s : List Char) : Multiset Char :=
  s.filter isVisible

theorem isVisible_eq (c : Char) : isVisible c = !isVoid c := by
  cases breaks : isLineBreak c with
  | true => simp [isVisible, isVoid, breaks, isBlank_of_isLineBreak breaks]
  | false => simp [isVisible, isVoid, isSpace, breaks, byteOrderMark, bne]

@[simp] theorem visible_nil : visible [] = 0 := rfl

@[simp] theorem visible_append (s t : List Char) : visible (s ++ t) = visible s + visible t := by
  simp [visible]

theorem visible_eq_zero {s : List Char} (h : ∀ c ∈ s, isVoid c) : visible s = 0 := by
  have none : s.filter isVisible = [] := by
    rw [List.filter_eq_nil_iff]
    intro c mem
    simp [isVisible_eq, h c mem]
  rw [visible, none]
  rfl

theorem visible_trim (s : List Char) : visible (Text.trim s) = visible s := by
  have start : ∀ s, visible (Text.trimStart s) = visible s := by
    intro s
    have front : visible (s.takeWhile Text.isBlank) = 0 :=
      visible_eq_zero fun c mem => isVoid_of_isBlank (List.mem_takeWhile_imp mem)
    have whole : s.takeWhile Text.isBlank ++ Text.trimStart s = s :=
      List.takeWhile_append_dropWhile
    conv => rhs; rw [← whole]
    rw [visible_append, front, zero_add]
  have finish : ∀ s, visible (Text.trimEnd s) = visible s := by
    intro s
    have back : visible (s.rtakeWhile Text.isBlank) = 0 := by
      refine visible_eq_zero fun c mem => isVoid_of_isBlank ?_
      simp only [List.rtakeWhile, List.mem_reverse] at mem
      exact List.mem_takeWhile_imp mem
    have whole : Text.trimEnd s ++ s.rtakeWhile Text.isBlank = s :=
      List.rdropWhile_append_rtakeWhile
    conv => rhs; rw [← whole]
    rw [visible_append, back, add_zero]
  rw [Text.trim, finish, start]

theorem visible_byteOrderMark : visible [byteOrderMark] = 0 := by
  refine visible_eq_zero ?_
  simp [isVoid, isSpace, byteOrderMark]

theorem visible_unmark (marked : Bool) (s : List Char) : visible (unmark marked s) = visible s := by
  cases marked with
  | true => rfl
  | false =>
    cases s with
    | nil => rfl
    | cons c rest =>
      rw [unmark, if_neg (by simp), withoutByteOrderMark]
      split
      · rename_i mark
        rw [← List.singleton_append, visible_append, beq_iff_eq.mp mark, visible_byteOrderMark,
          zero_add]
      · rfl

theorem SourceFile.visible_mark (file : SourceFile) : visible file.mark = 0 := by
  unfold mark
  split
  · exact visible_byteOrderMark
  · rfl

variable {span : Span} {ending : String} {b : Block Decl} {ds : List Decl}

namespace Span

def visible (span : Span) : Multiset Char :=
  CSharpTidy.visible (Span.text span).toList

@[simp] theorem visible_nil : visible [] = 0 := rfl

theorem visible_cons (t : Trivia) (span : Span) :
    visible (t :: span) = CSharpTidy.visible t.text.toList + visible span := by
  rw [visible, text_cons, String.toList_append, visible_append, visible]

@[simp] theorem visible_append (a b : Span) : visible (a ++ b) = visible a + visible b := by
  rw [visible, text_append, String.toList_append, CSharpTidy.visible_append, visible, visible]

theorem visible_flatMap {α : Type} (f : α → Span) (l : List α) :
    visible (l.flatMap f) = (l.map fun a => visible (f a)).sum := by
  induction l with
  | nil => rfl
  | cons a l ih => rw [List.flatMap_cons, visible_append, ih, List.map_cons, List.sum_cons]

theorem visible_solid (lexed : ∀ t ∈ span, t.Lexed) : span.solid.visible = span.visible := by
  induction span with
  | nil => rfl
  | cons t rest ih =>
    rw [List.forall_mem_cons] at lexed
    cases blank : t.isBlank with
    | false => rw [solid_cons_of_not_blank blank, visible_cons, visible_cons, ih lexed.2]
    | true =>
      have void : visible [t] = 0 :=
        visible_eq_zero (isVoid_text (by simpa using lexed.1) (by simpa using blank))
      rw [solid_cons_of_blank blank, ← List.singleton_append, visible_append, void, zero_add,
        ih lexed.2]

theorem visible_eq_of_solid {a b : Span} (lexedA : ∀ t ∈ a, t.Lexed) (lexedB : ∀ t ∈ b, t.Lexed)
    (h : a.solid = b.solid) : a.visible = b.visible := by
  rw [← visible_solid lexedA, h, visible_solid lexedB]

def regionMarkers (span : Span) : Span :=
  span.filter Trivia.isRegionMarker

theorem visible_filter (p : Trivia → Bool) (span : Span) :
    span.visible = visible (span.filter fun t => !p t) + visible (span.filter p) := by
  induction span with
  | nil => rfl
  | cons t rest ih =>
    cases kept : p t with
    | false => simp [kept, visible_cons, ih, add_assoc]
    | true => simp [kept, visible_cons, ih, add_left_comm]

theorem regionMarkers_solid (span : Span) : span.solid.regionMarkers = span.regionMarkers := by
  rw [regionMarkers, solid, List.filter_filter, regionMarkers]
  refine List.filter_congr fun t _ => ?_
  cases marker : t.isRegionMarker with
  | false => rfl
  | true => simp [Trivia.not_isBlank_of_isRegionMarker marker]

theorem lexed_stripUnless (pinned : Bool) (lexed : ∀ t ∈ span, t.Lexed) :
    ∀ t ∈ stripUnless pinned span, t.Lexed := by
  cases pinned with
  | true => exact lexed
  | false => exact fun t mem => lexed t ((stripRegionsFrom_sublist [] false 0 span).subset mem)

theorem visible_stripUnless (pinned : Bool) (lexed : ∀ t ∈ span, t.Lexed) :
    span.visible = (stripUnless pinned span).visible +
      if pinned then 0 else span.regionMarkers.visible := by
  cases pinned with
  | true => simp
  | false =>
    have stripped := visible_solid (lexed_stripUnless false lexed)
    rw [stripUnless_free, solid_stripRegions] at stripped
    rw [← visible_solid lexed, visible_filter Trivia.isRegionMarker, ← unmarked, ← regionMarkers,
      regionMarkers_solid, stripped]
    rfl

theorem lexed_stripLeading (lexed : ∀ t ∈ span, t.Lexed) : ∀ t ∈ stripLeading span, t.Lexed := by
  obtain ⟨indent, strip, blanks, -, -⟩ := exists_stripLeading span
  rw [strip, List.forall_mem_append]
  exact ⟨fun t mem => lexed t (blanksBefore_subset span t (blanks.subset mem)),
    fun t mem => lexed t ((List.dropWhile_suffix _).subset mem)⟩

end Span

theorem Trivia.lexed_lineEnd (terminator : IsTerminator ending) : (Trivia.lineEnd ending).Lexed :=
  ⟨by simp [lineEnd, isWhitespace], fun _ => terminator⟩

namespace Span

section
variable {ending : String} (terminator : IsTerminator ending)
include terminator

theorem visible_apply (spacing : Spacing) (lexed : ∀ t ∈ span, t.Lexed) :
    (∀ t ∈ spacing.apply ending span, t.Lexed) ∧
      visible (spacing.apply ending span) = span.visible := by
  have strip := lexed_stripLeading lexed
  cases spacing with
  | free => exact ⟨lexed, rfl⟩
  | packed => exact ⟨strip, visible_eq_of_solid strip lexed (solid_stripLeading span)⟩
  | spaced =>
    have one : ∀ t ∈ oneLeading ending span, t.Lexed :=
      List.forall_mem_cons.mpr ⟨Trivia.lexed_lineEnd terminator, strip⟩
    exact ⟨one, visible_eq_of_solid one lexed (solid_oneLeading ending span)⟩

theorem visible_endWhen (ends : Bool) (lexed : ∀ t ∈ span, t.Lexed) :
    visible (endWhen ends ending span) = span.visible := by
  cases ends with
  | false => rfl
  | true =>
    refine visible_eq_of_solid ?_ lexed (solid_stripTrailing ending span)
    rw [endWhen, if_pos rfl, stripTrailing_eq, List.forall_mem_append, List.forall_mem_singleton]
    exact ⟨fun t mem => lexed t ((List.rdropWhile_prefix _ _).subset mem),
      Trivia.lexed_lineEnd terminator⟩

end

variable {indent : String}

theorem lexed_setIndent (spaces : ∀ c ∈ indent.toList, isSpace c) (lexed : ∀ t ∈ span, t.Lexed) :
    ∀ t ∈ setIndent indent span, t.Lexed := by
  obtain ⟨before, line, rfl, inline, ended⟩ := exists_lastLine span
  rw [List.forall_mem_append] at lexed
  rw [setIndent_append indent inline ended]
  simp only [List.forall_mem_append]
  refine ⟨lexed.1, ?_, fun t mem => lexed.2 t ((List.dropWhile_suffix _).subset mem)⟩
  unfold indentation?
  split
  · simp
  · rename_i given
    rw [List.forall_mem_singleton]
    exact ⟨fun _ => ⟨by simpa using given, spaces⟩, by simp [Trivia.isEndOfLine]⟩

theorem visible_setIndent (spaces : ∀ c ∈ indent.toList, isSpace c) (lexed : ∀ t ∈ span, t.Lexed) :
    visible (setIndent indent span) = span.visible :=
  visible_eq_of_solid (lexed_setIndent spaces lexed) lexed (solid_setIndent indent span)

end Span

namespace Decl

def visible (d : Decl) : Multiset Char :=
  CSharpTidy.visible d.print.toList

theorem visible_eq (d : Decl) : d.visible = Span.visible d.leading +
    CSharpTidy.visible d.text.toList + CSharpTidy.visible (Block.printOption d.block).toList +
      Span.visible d.trailing := by
  simp only [visible, print_eq, String.toList_append, visible_append, Span.visible]

theorem visible_printAll (ds : List Decl) :
    CSharpTidy.visible (printAll ds).toList = (ds.map visible).sum := by
  induction ds with
  | nil => rfl
  | cons d rest ih =>
    rw [printAll, String.toList_append, visible_append, ih, List.map_cons, List.sum_cons, visible]

def ownTrivia (d : Decl) : Span :=
  d.leading ++ d.trailing

theorem ownTrivia_mapBlocks (f : Block Decl → Block Decl) (d : Decl) :
    (d.mapBlocks f).ownTrivia = d.ownTrivia := by
  rw [mapBlocks_eq]
  rfl

variable {d : Decl}

theorem visible_stripUnless (pinned : Bool) (lexed : d.Lexed) :
    d.visible = (d.stripUnless pinned).visible +
      if pinned then 0 else Span.visible (Span.regionMarkers d.ownTrivia) := by
  have leading := Span.visible_stripUnless pinned lexed.leading
  have trailing := Span.visible_stripUnless pinned lexed.trailing
  rw [visible_eq, leading, trailing, visible_eq]
  cases pinned with
  | true => simp [stripUnless]
  | false =>
    simp only [stripUnless, ownTrivia, Span.regionMarkers, List.filter_append, Span.visible_append,
      Bool.false_eq_true, if_false]
    abel

theorem Lexed.stripUnless (lexed : d.Lexed) (pinned : Bool) : (d.stripUnless pinned).Lexed :=
  ⟨Span.lexed_stripUnless pinned lexed.leading, Span.lexed_stripUnless pinned lexed.trailing,
    lexed.indent⟩

theorem visible_respace (terminator : IsTerminator ending) (spacing : Spacing)
    (ends lineStart : Bool) (lexed : d.Lexed) :
    (d.respace ending spacing ends lineStart).visible = d.visible := by
  obtain ⟨spaced, leading⟩ := Span.visible_apply terminator spacing lexed.leading
  have trailing := Span.visible_endWhen terminator ends lexed.trailing
  rw [visible_eq, visible_eq, respace, reindent]
  cases indented : d.lineIndent with
  | none => simp only [leading, trailing]
  | some indent =>
    have indentation := Span.visible_setIndent (lexed.indent indent indented) spaced
    cases lineStart with
    | false => simp [leading, trailing]
    | true => simp [indentation, leading, trailing]

end Decl

namespace Block

def visible (b : Block Decl) : Multiset Char :=
  CSharpTidy.visible b.print.toList

theorem visible_eq (b : Block Decl) : b.visible = Span.visible b.openTrailing +
    (b.decls.map Decl.visible).sum + Span.visible b.closeLeading +
      CSharpTidy.visible b.close.toList := by
  simp only [visible, print_eq, String.toList_append, visible_append, Decl.visible_printAll,
    decls, List.map_append, List.sum_append, Span.visible]
  abel

/-- The trivia that a block owns itself, and not through the blocks inside it. -/
def ownTrivia (b : Block Decl) : Span :=
  b.openTrailing ++ b.decls.flatMap Decl.ownTrivia ++ b.closeLeading

/-- The region markers that are dropped from a block. -/
def looseMarkers (b : Block Decl) : Span :=
  if b.membersGuarded then [] else Span.regionMarkers b.ownTrivia

theorem arrange_decls (roots : List String) (b : Block Decl) :
    (b.arrange roots).decls.Perm (b.decls.map (Decl.stripUnless b.membersGuarded)) := by
  rw [arrange_eq]
  simp only [decls, List.map_append]
  exact ((sortUnless_perm ..).append (.refl _)).append (sortUnless_perm ..)

theorem visible_arrange (roots : List String) (lexed : b.Lexed) :
    b.visible = (b.arrange roots).visible + Span.visible b.looseMarkers := by
  have opening := Span.visible_stripUnless b.membersGuarded lexed.openTrailing
  have closing := Span.visible_stripUnless b.membersGuarded lexed.closeLeading
  have perm := ((arrange_decls roots b).map Decl.visible).sum_eq
  have decls : (b.decls.map Decl.visible).sum = ((b.arrange roots).decls.map Decl.visible).sum +
      (b.decls.map fun d => if b.membersGuarded then 0
        else Span.visible (Span.regionMarkers d.ownTrivia)).sum := by
    rw [perm, List.map_map, ← List.sum_map_add]
    exact congrArg List.sum (List.map_congr_left fun d mem =>
      Decl.visible_stripUnless b.membersGuarded (lexed.decls d mem))
  rw [visible_eq, visible_eq, decls, opening, closing, looseMarkers]
  have frame : (b.arrange roots).openTrailing = Span.stripUnless b.membersGuarded b.openTrailing ∧
      (b.arrange roots).closeLeading = Span.stripUnless b.membersGuarded b.closeLeading ∧
      (b.arrange roots).close = b.close := by
    rw [arrange_eq]
    exact ⟨rfl, rfl, rfl⟩
  rw [frame.1, frame.2.1, frame.2.2]
  cases b.membersGuarded with
  | true => simp
  | false =>
    simp only [ownTrivia, Span.regionMarkers, List.filter_append, List.filter_flatMap,
      Span.visible_append, Span.visible_flatMap, Bool.false_eq_true, if_false]
    abel

theorem LexedAll.arrange (h : b.LexedAll) (roots : List String) : (b.arrange roots).LexedAll := by
  obtain ⟨⟨opening, closing, decls, plain⟩, bodies⟩ := h
  refine .intro ⟨?_, ?_, fun d mem => ?_, ?_⟩ ?_
  · rw [arrange_eq]
    exact Span.lexed_stripUnless _ opening
  · rw [arrange_eq]
    exact Span.lexed_stripUnless _ closing
  · obtain ⟨old, found, rfl⟩ := List.mem_map.mp ((arrange_decls roots b).mem_iff.mp mem)
    exact (decls old found).stripUnless _
  · rw [List.forall_mem_append] at plain ⊢
    rw [arrange_eq]
    constructor
    · intro d mem
      obtain ⟨old, found, rfl⟩ := List.mem_map.mp ((sortUnless_perm ..).mem_iff.mp mem)
      exact plain.1 old found
    · rw [List.forall_mem_map]
      exact plain.2
  · rw [arrange_eq]
    intro d mem
    obtain ⟨old, found, rfl⟩ := List.mem_map.mp ((sortUnless_perm ..).mem_iff.mp mem)
    exact bodies old found

end Block

namespace Decl

section
variable {ending : String} (terminator : IsTerminator ending)
include terminator

theorem visible_spaceImports (lineStart : Bool) (lexed : ∀ d ∈ ds, d.Lexed) :
    ((reindentAll lineStart (spaceImports ending ds)).map visible).sum = (ds.map visible).sum := by
  rw [reindentAll_spaceImports]
  cases ds with
  | nil => rfl
  | cons d rest =>
    rw [List.forall_mem_cons] at lexed
    have others : (rest.map (respace ending .packed true true)).map visible = rest.map visible := by
      rw [List.map_map]
      exact List.map_congr_left fun d mem => visible_respace terminator _ _ _ (lexed.2 d mem)
    rw [List.map_cons, List.map_cons, visible_respace terminator _ _ _ lexed.1, others]

theorem visible_spaceMembers (packed lineStart : Bool) (lexed : ∀ d ∈ ds, d.Lexed) :
    ((reindentAll lineStart (spaceMembers ending packed ds)).map visible).sum =
      (ds.map visible).sum := by
  induction ds generalizing packed lineStart with
  | nil => rfl
  | cons d rest ih =>
    rw [List.forall_mem_cons] at lexed
    rw [reindentAll_spaceMembers_cons, List.map_cons, List.map_cons, List.sum_cons, List.sum_cons,
      visible_respace terminator _ _ _ lexed.1, ih false _ lexed.2]

end

theorem visible_reindentAll (lineStart : Bool) (lexed : ∀ d ∈ ds, d.Lexed) :
    ((reindentAll lineStart ds).map visible).sum = (ds.map visible).sum := by
  induction ds generalizing lineStart with
  | nil => rfl
  | cons d rest ih =>
    rw [List.forall_mem_cons] at lexed
    have same := visible_respace (.inl rfl) .free false lineStart lexed.1
    rw [respace_free] at same
    rw [reindentAll, List.map_cons, List.map_cons, List.sum_cons, List.sum_cons, same, ih _ lexed.2]

end Decl

namespace Block

theorem visible_space (terminator : IsTerminator ending) (lexed : b.Lexed) :
    b.visible = (b.space ending).visible := by
  obtain ⟨opening, closing, decls, -⟩ := lexed
  simp only [Block.decls, List.forall_mem_append] at decls
  have strip := Span.lexed_stripLeading closing
  have close : Span.visible (if b.braced then Span.stripLeading b.closeLeading
      else b.closeLeading) = Span.visible b.closeLeading := by
    split
    · exact Span.visible_eq_of_solid strip closing (Span.solid_stripLeading _)
    · rfl
  rw [visible_eq, visible_eq, space_eq]
  simp only [Block.decls, List.map_append, List.sum_append, close, spaceOpening_eq,
    Span.visible_endWhen terminator _ opening, Decl.visible_spaceImports terminator _ decls.1.1,
    Decl.visible_reindentAll _ decls.1.2, Decl.visible_spaceMembers terminator _ _ decls.2]

end Block

mutual

def Block.blocks : Block Decl → List (Block Decl)
  | ⟨braced, openTrailing, imports, attributes, members, closeLeading, close⟩ =>
      ⟨braced, openTrailing, imports, attributes, members, closeLeading, close⟩ ::
        (Decl.blocksAll imports ++ Decl.blocksAll attributes ++ Decl.blocksAll members)

def Block.blocksOption : Option (Block Decl) → List (Block Decl)
  | none => []
  | some b => Block.blocks b

def Decl.blocks : Decl → List (Block Decl)
  | ⟨_, _, _, _, _, block, _, _⟩ => Block.blocksOption block

def Decl.blocksAll : List Decl → List (Block Decl)
  | [] => []
  | d :: rest => Decl.blocks d ++ Decl.blocksAll rest

end

theorem Decl.blocks_eq (d : Decl) : d.blocks = Block.blocksOption d.block := by
  cases d
  rfl

theorem Decl.blocksAll_eq (ds : List Decl) : Decl.blocksAll ds = ds.flatMap Decl.blocks := by
  induction ds with
  | nil => rfl
  | cons d rest ih => rw [blocksAll, ih, List.flatMap_cons]

theorem Block.blocks_eq (b : Block Decl) : b.blocks = b :: b.decls.flatMap Decl.blocks := by
  cases b
  simp only [blocks, decls, Decl.blocksAll_eq, List.flatMap_append]

namespace Decl

theorem blocks_of_plain (plain : ∀ d ∈ ds, d.block = none) : ds.flatMap blocks = [] := by
  rw [List.flatMap_eq_nil_iff]
  intro d mem
  rw [blocks_eq, plain d mem]
  rfl

theorem visible_mapBlocks {f : Block Decl → Block Decl} {lost : Block Decl → Span}
    (bodies : ∀ d ∈ ds, ∀ a, d.block = some a →
      a.visible = (a.mapBlocks f).visible + Span.visible (a.blocks.flatMap lost)) :
    (ds.map visible).sum = ((ds.map (mapBlocks f)).map visible).sum +
      Span.visible ((ds.flatMap blocks).flatMap lost) := by
  have each : ∀ d ∈ ds, d.visible =
      (d.mapBlocks f).visible + Span.visible (d.blocks.flatMap lost) := by
    intro d mem
    rw [mapBlocks_eq, visible_eq, visible_eq, blocks_eq]
    cases body : d.block with
    | none => simp [Block.printOption, Block.blocksOption]
    | some a =>
      have inner := bodies d mem a body
      rw [Block.visible, Block.visible] at inner
      simp only [Option.map_some, Block.printOption, Block.blocksOption, inner]
      abel
  rw [List.flatMap_assoc, Span.visible_flatMap, List.map_map, ← List.sum_map_add]
  exact congrArg List.sum (List.map_congr_left each)

end Decl

namespace Block

/-- Where one step on a block loses what `lost` says, whatever the bodies of its members, a pass
over a tree loses that of every block. -/
theorem visible_mapBlocks {f : Block Decl → Block Decl} {lost : Block Decl → Span}
    (step : ∀ b : Block Decl, b.Lexed → b.visible = (f b).visible + Span.visible (lost b))
    (unmoved : ∀ b : Block Decl,
      lost { b with members := b.members.map (Decl.mapBlocks f) } = lost b) (h : b.LexedAll) :
    b.visible = (b.mapBlocks f).visible + Span.visible (b.blocks.flatMap lost) := by
  induction h with
  | @intro b own bodies ih =>
    have outer := step _ (own.mapMembers f)
    have inner := Decl.visible_mapBlocks ih
    rw [unmoved] at outer
    rw [mapBlocks_eq, blocks_eq, List.flatMap_cons, decls, List.flatMap_append,
      Decl.blocks_of_plain own.plain, List.nil_append, Span.visible_append, ← add_assoc, ← outer,
      visible_eq, visible_eq]
    simp only [decls, List.map_append, List.sum_append, inner]
    abel

theorem looseMarkers_mapBlocks (f : Block Decl → Block Decl) (b : Block Decl) :
    looseMarkers { b with members := b.members.map (Decl.mapBlocks f) } = b.looseMarkers := by
  have own : ownTrivia { b with members := b.members.map (Decl.mapBlocks f) } = b.ownTrivia := by
    simp [ownTrivia, decls, List.flatMap_map, Decl.ownTrivia_mapBlocks]
  rw [looseMarkers, looseMarkers, membersGuarded_mapBlocks, own]

theorem visible_tidy (roots : List String) (terminator : IsTerminator ending) (h : b.LexedAll) :
    b.visible = ((b.reorganize roots).normalize ending).visible +
      Span.visible (b.blocks.flatMap looseMarkers) := by
  have arranged : (b.reorganize roots).LexedAll := h.mapBlocks fun _ lexed => lexed.arrange roots
  have spaced : (b.reorganize roots).visible = ((b.reorganize roots).normalize ending).visible +
      Span.visible ((b.reorganize roots).blocks.flatMap fun _ => []) :=
    visible_mapBlocks (fun a lexed => by simpa using visible_space terminator lexed) (fun _ => rfl)
      arranged
  have nothing : (b.reorganize roots).blocks.flatMap (fun _ => ([] : Span)) = [] := by simp
  rw [nothing, Span.visible_nil, add_zero] at spaced
  rw [← spaced]
  exact visible_mapBlocks (fun a => visible_arrange roots) (looseMarkers_mapBlocks _) h

end Block

def SourceFile.looseMarkers (file : SourceFile) : Span :=
  (if file.root.membersGuarded then [] else Span.regionMarkers file.header) ++
    file.root.blocks.flatMap Block.looseMarkers

theorem SourceFile.visible_tidy (roots : List String) (terminator : IsTerminator ending)
    {file : SourceFile} (h : file.Lexed) : visible file.body.toList =
      visible ((file.reorganize roots).normalize ending).body.toList +
        Span.visible file.looseMarkers := by
  have header := Span.visible_stripUnless file.root.membersGuarded h.header
  have root := Block.visible_tidy roots terminator h.root
  have same : ((file.reorganize roots).normalize ending).body =
      Span.text (Span.stripUnless file.root.membersGuarded file.header) ++
        ((file.root.reorganize roots).normalize ending).print := rfl
  rw [same, body, String.toList_append, String.toList_append, visible_append, visible_append,
    ← Span.visible, ← Span.visible, ← Block.visible, ← Block.visible, header, root, looseMarkers,
    Span.visible_append]
  cases file.root.membersGuarded with
  | true => simp [add_assoc]
  | false => simp [add_assoc, add_left_comm]

/-- Organizing keeps every visible character but those of the dropped region markers. -/
theorem organize_visible {options : Options} {source out : List Char}
    (h : organize options source = .ok out) :
    ∃ file, SourceFile.parse source options.definedSymbols = .ok file ∧
      visible source = visible out + visible (Span.text file.looseMarkers).toList := by
  cases read : SourceFile.parse source options.definedSymbols with
  | error e => simp [organize, read] at h
  | ok file =>
    have terminator := options.lineEnding.resolve_isTerminator source
    have tidy := SourceFile.visible_tidy options.standardPrefixes terminator
      (SourceFile.parse_lexed read)
    obtain ⟨whole, -⟩ := SourceFile.parse_mark read
    rw [organize_of_parse read] at h
    cases h
    refine ⟨file, rfl, ?_⟩
    have ending := visible_eq_zero terminator.isVoid
    conv => lhs; rw [whole]
    simp only [visible_append, file.visible_mark, visible_trim, visible_unmark, ending, add_zero,
      zero_add]
    exact tidy

/-- The markers around a class go, those behind a directive in its body stay. -/
theorem organize_visible_regions :
    let source := "#region A\nclass C \x7b\n#pragma p\n#region B\nint a;\n\x7d\n#endregion".toList
    let out := "class C \x7b\n#pragma p\n#region B\nint a;\n\x7d\n".toList
    organize {} source = .ok out ∧ ∃ file, SourceFile.parse source [] = .ok file ∧
      file.looseMarkers.text = "#region A#endregion" ∧
      visible source = visible out + visible file.looseMarkers.text.toList := by
  intro source out
  have done : organize {} source = .ok out := eq_ok_of_toOption (by decide +kernel)
  have markers : (SourceFile.parse source []).toOption.map (fun file => file.looseMarkers.text) =
      some "#region A#endregion" := by
    decide +kernel
  obtain ⟨file, read, kept⟩ := organize_visible done
  change SourceFile.parse source [] = .ok file at read
  rw [read] at markers
  exact ⟨done, file, read, Option.some.inj markers, kept⟩

end CSharpTidy
