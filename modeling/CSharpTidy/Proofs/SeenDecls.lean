import CSharpTidy.Proofs.SharedReading
import CSharpTidy.Proofs.SourceRows

/- Declarations as a second reader sees them, with other symbols defined. Each takes it from one
   state to another and shows it some lexemes. A list that keeps its order shows the same lexemes
   again; one that is sorted shows them in another order if each declaration leaves the state as
   it was. -/
namespace CSharpTidy

open CSharpTidy.Span CSharpTidy.Part

theorem byKind_lexeme : ByKind Atom.lexeme? :=
  fun _ _ _ => rfl

/-- Dead code that changes no symbol, or no dead code at all. -/
def Trivia.isCalm (t : Trivia) : Bool :=
  t.kind != .disabled || CSharpTidy.isCalm t.text

def Atom.isCalm : Atom → Bool
  | .trivia t => t.isCalm
  | .token _ => true

section
variable {α : Type} {note : Atom → Option α} {d d' : Conditional} {ns : List α}

theorem Sees.through {as : List Atom} (h : Sees note d as ns d') (calm : ∀ a ∈ as, a.isCalm) :
    d.Through (as.filterMap Atom.directive?) d' := by
  induction h with
  | nil => exact .nil _
  | @cons d d₁ d' a as ns ns' first _ ih =>
    rw [List.forall_mem_cons] at calm
    have rest := ih calm.2
    cases a with
    | token l =>
      obtain ⟨-, -, rfl⟩ := first
      exact rest
    | trivia t =>
      obtain ⟨kind, text⟩ := t
      cases kind with
      | directive kind => exact .cons first.1 rest
      | disabled =>
        obtain rfl := first.1 (.inr (by simpa [Atom.isCalm, Trivia.isCalm] using calm.1))
        exact rest
      | whitespace | endOfLine =>
        obtain ⟨-, rfl⟩ := first
        exact rest
      | lineComment | docComment | blockComment =>
        obtain ⟨-, -, rfl⟩ := first
        exact rest

theorem Sees.of_inert {span : Span} (h : Sees note d (span.map .trivia) ns d')
    (inert : span.Inert) : ns = [] ∧ d' = d := by
  induction span generalizing d ns with
  | nil =>
    cases h
    exact ⟨rfl, rfl⟩
  | cons t span ih =>
    rw [Inert, List.forall_mem_cons] at inert
    cases h with
    | cons first more =>
      obtain ⟨kind, text⟩ := t
      cases kind with
      | directive => exact absurd inert.1.1 (by simp [Trivia.directive?])
      | disabled => exact absurd rfl inert.1.2
      | whitespace | endOfLine =>
        obtain ⟨rfl, rfl⟩ := first
        exact ih more inert.2
      | lineComment | docComment | blockComment =>
        obtain ⟨-, rfl, rfl⟩ := first
        exact ih more inert.2

end

variable {d d' : Conditional} {ls : List Lexeme}

theorem Sees.stripUnless {span : Span} (h : Sees Atom.lexeme? d (span.map .trivia) ls d')
    (pinned : Bool) : Sees Atom.lexeme? d ((span.stripUnless pinned).map .trivia) ls d' := by
  have filter : ∀ {d : Conditional} {ls : List Lexeme} (span : Span),
      Sees Atom.lexeme? d (span.map .trivia) ls d' →
      Sees Atom.lexeme? d ((span.filter fun t => !t.isRegionMarker).map .trivia) ls d' := by
    intro d ls span h
    induction span generalizing d ls with
    | nil => exact h
    | cons t span ih =>
      cases h with
      | cons first more =>
        rw [List.filter_cons]
        split
        · exact .cons first (ih more)
        · rename_i region
          obtain ⟨kind, text⟩ := t
          cases kind with
          | directive kind =>
            obtain ⟨applied, rfl⟩ := first
            obtain rfl := Conditional.apply_region (by simpa [Trivia.isRegionMarker] using region)
              applied
            simpa [Atom.lexeme?] using ih more
          | _ => exact absurd rfl region
  cases pinned with
  | true => exact h
  | false =>
    rw [← Sees.solid_iff] at h ⊢
    rw [Span.stripUnless, if_neg (by simp), solid_stripRegions, unmarked]
    exact filter _ h

namespace Part.ShowsAll

variable {α : Type} {note : Atom → Option α} {d d' d'' : Conditional} {ps qs : List Part}
  {ns ns' : List α}

theorem append (h : ShowsAll note d ps ns d') (h' : ShowsAll note d' qs ns' d'') :
    ShowsAll note d (ps ++ qs) (ns ++ ns') d'' := by
  induction h with
  | nil => exact h'
  | hollow empty _ ih => exact .hollow empty (ih h')
  | cons first _ ih =>
    rw [List.append_assoc]
    exact .cons first (ih h')

theorem congr (h : ShowsAll note d ps ns d') (same : qs.map frame = ps.map frame) :
    ShowsAll note d qs ns d' := by
  induction h generalizing qs with
  | nil =>
    obtain rfl := List.map_eq_nil_iff.mp same
    exact .nil _
  | hollow empty _ ih =>
    obtain ⟨q, qs, rfl, first, rest⟩ := List.map_eq_cons_iff.mp same
    exact .hollow (first.trans empty) (ih rest)
  | @cons p d n d₁ d' ps before own ns shows _ ih =>
    obtain ⟨q, qs, rfl, first, rest⟩ := List.map_eq_cons_iff.mp same
    obtain ⟨leading, text, trailing⟩ : q.leading = p.leading ∧ q.text = p.text ∧
        q.trailing = p.trailing := by simpa [frame] using first
    have alike : q.Shows note d n d₁ before own :=
      ⟨leading ▸ shows.leading, text ▸ shows.text, text ▸ shows.solid, trailing ▸ shows.trailing⟩
    exact .cons alike (ih rest)

end Part.ShowsAll

variable {ds : List Decl}

namespace Decl

def pieces (d : Decl) : List Part :=
  d.memberParts false false

theorem frame_memberParts (d : Decl) (packed lineStart : Bool) :
    (d.memberParts packed lineStart).map frame = d.pieces.map frame := by
  obtain ⟨kind, visibility, key, leading, text, block, trailing, lineIndent⟩ := d
  simp only [pieces, memberParts]
  cases block <;> simp [Block.partsOption, Block.openingPart, Block.closingPart, frame]

theorem frame_memberPartsAll (ds : List Decl) (packed lineStart : Bool) :
    (memberPartsAll packed lineStart ds).map frame = (ds.flatMap pieces).map frame := by
  induction ds generalizing packed lineStart with
  | nil => rfl
  | cons d ds ih =>
    rw [memberPartsAll, List.map_append, frame_memberParts, ih, List.flatMap_cons, List.map_append]

theorem frame_part {d : Decl} (plain : d.block = none) (spacing : Spacing) (ends lineStart : Bool) :
    [(d.part spacing ends lineStart).frame] = d.pieces.map frame := by
  obtain ⟨kind, visibility, key, leading, text, block, trailing, lineIndent⟩ := d
  cases plain
  simp [pieces, memberParts, Block.partsOption, part, frame, Block.printOption]

theorem frame_importParts (plain : ∀ d ∈ ds, d.block = none) (lineStart : Bool) :
    (importParts lineStart ds).map frame = (ds.flatMap pieces).map frame := by
  have packed : ∀ ds : List Decl, (∀ d ∈ ds, d.block = none) →
      (ds.map (part .packed true true)).map frame = (ds.flatMap pieces).map frame := by
    intro ds plain
    induction ds with
    | nil => rfl
    | cons d ds ih =>
      rw [List.forall_mem_cons] at plain
      rw [List.map_cons, List.map_cons, ih plain.2, List.flatMap_cons, List.map_append,
        ← frame_part plain.1 .packed true true, List.singleton_append]
  cases ds with
  | nil => rfl
  | cons d ds =>
    rw [List.forall_mem_cons] at plain
    rw [importParts, List.map_cons, packed ds plain.2, List.flatMap_cons, List.map_append,
      ← frame_part plain.1 .spaced true lineStart, List.singleton_append]

theorem frame_attributeParts (plain : ∀ d ∈ ds, d.block = none) (lineStart : Bool) :
    (attributeParts lineStart ds).map frame = (ds.flatMap pieces).map frame := by
  induction ds generalizing lineStart with
  | nil => rfl
  | cons d ds ih =>
    rw [List.forall_mem_cons] at plain
    rw [attributeParts, List.map_cons, ih plain.2, List.flatMap_cons, List.map_append,
      ← frame_part plain.1 .free false lineStart, List.singleton_append]

theorem exists_pieces (d : Decl) : ∃ (p : Part) (ps : List Part), p.text = d.text ∧
    ∀ leading, (d.withLeading leading).pieces = { p with leading := leading } :: ps := by
  obtain ⟨kind, visibility, key, leading, text, block, trailing, lineIndent⟩ := d
  let whole : Part := ⟨kind.spacing, kind.endsLine, none, [], text, trailing⟩
  cases block with
  | none => exact ⟨whole, [], rfl, fun _ => rfl⟩
  | some b => exact ⟨b.openingPart whole, b.parts ++ [b.closingPart whole], rfl, fun _ => rfl⟩

end Decl

theorem Block.frame_parts {b : Block Decl}
    (plain : ∀ d ∈ b.imports ++ b.attributes, d.block = none) :
    b.parts.map frame = (b.decls.flatMap Decl.pieces).map frame := by
  rw [List.forall_mem_append] at plain
  rw [parts_eq, List.map_append, List.map_append, Decl.frame_importParts plain.1,
    Decl.frame_attributeParts plain.2, Decl.frame_memberPartsAll, decls, List.flatMap_append,
    List.flatMap_append, List.map_append, List.map_append]

/-- A declaration as a second reader sees it: the state in front of it, in front of its text and
behind it, the lexemes that it shows, and the directives inside of it. -/
structure Decl.Shown (a : Decl) (d m d' : Conditional) (before own : List Lexeme)
    (ks : List DirectiveKind) : Prop where
  leading : Sees Atom.lexeme? d (a.leading.map .trivia) before m
  rest : ShowsAll Atom.lexeme? m (a.withLeading []).pieces own d'
  solid : a.text ≠ ""
  through : m.Through ks d'
  unmarked : a.trailing.Unmarked

inductive Decl.ShownAll :
    Conditional → List Decl → List (List Marker) → List Lexeme → Conditional → Prop
  | nil (d : Conditional) : ShownAll d [] [] [] d
  | cons {a : Decl} {d m d₁ d' : Conditional} {before own ls : List Lexeme} {inside : List Marker}
      {as : List Decl} {insides : List (List Marker)}
      (first : a.Shown d m d₁ before own (inside.map Marker.kind))
      (more : ShownAll d₁ as insides ls d') :
      ShownAll d (a :: as) (inside :: insides) (before ++ own ++ ls) d'

namespace Decl

variable {a : Decl} {as bs : List Decl} {d m d₁ d' : Conditional} {before own ls : List Lexeme}
  {ks : List DirectiveKind} {insides insides' : List (List Marker)}

theorem Shown.pieces (h : a.Shown d m d' before own ks) :
    ShowsAll Atom.lexeme? d a.pieces (before ++ own) d' := by
  obtain ⟨p, ps, text, pieces⟩ := a.exists_pieces
  have rest := h.rest
  have whole := pieces a.leading
  rw [withLeading_self] at whole
  rw [pieces] at rest
  rw [whole]
  cases rest with
  | hollow empty =>
    have none : p.text = "" := congrArg (·.2.1) empty
    exact absurd (text.symm.trans none) h.solid
  | cons first more =>
    have leading := first.leading
    cases leading
    have shows : Shows Atom.lexeme? { p with leading := a.leading } d m _ before _ :=
      ⟨h.leading, first.text, first.solid, first.trailing⟩
    rw [List.nil_append, ← List.append_assoc]
    exact .cons shows more

theorem Shown.strip (h : a.Shown d m d' before own ks) (pinned : Bool) :
    (a.stripUnless pinned).Shown d m d' before own ks := by
  have trailing := Outline.stripUnless_of_unmarked h.unmarked pinned
  have same : (a.stripUnless pinned).withLeading [] = a.withLeading [] := by
    simp only [stripUnless, withLeading, trailing]
  refine ⟨h.leading.stripUnless pinned, same ▸ h.rest, h.solid, h.through, ?_⟩
  simp only [stripUnless, trailing]
  exact h.unmarked

theorem Shown.still (h : a.Shown d m d' before own ks) (calm : ∀ t ∈ a.leading, t.isCalm)
    (contained : selfContained (a.leading.directives ++ ks)) : d' = d := by
  have leading := h.leading.through (List.forall_mem_map.mpr calm)
  rw [Atom.filterMap_trivia] at leading
  exact (leading.append h.through).eq_of_selfContained contained

namespace ShownAll

theorem pieces (h : ShownAll d as insides ls d') :
    ShowsAll Atom.lexeme? d (as.flatMap Decl.pieces) ls d' := by
  induction h with
  | nil => exact .nil _
  | cons first _ ih => exact first.pieces.append ih

theorem append {ls' : List Lexeme} (h : ShownAll d as insides ls d₁)
    (h' : ShownAll d₁ bs insides' ls' d') :
    ShownAll d (as ++ bs) (insides ++ insides') (ls ++ ls') d' := by
  induction h with
  | nil => exact h'
  | cons first _ ih =>
    rw [List.append_assoc]
    exact .cons first (ih h')

theorem split (h : ShownAll d (as ++ bs) (insides ++ insides') ls d')
    (length : insides.length = as.length) : ∃ d₁ ls₁ ls₂, ls = ls₁ ++ ls₂ ∧
      ShownAll d as insides ls₁ d₁ ∧ ShownAll d₁ bs insides' ls₂ d' := by
  induction as generalizing d insides ls with
  | nil =>
    obtain rfl := List.eq_nil_of_length_eq_zero length
    exact ⟨d, [], ls, rfl, .nil d, h⟩
  | cons a as ih =>
    obtain ⟨inside, insides, rfl⟩ := List.exists_cons_of_length_eq_add_one length
    cases h with
    | cons first more =>
      obtain ⟨d₁, ls₁, ls₂, rfl, front, back⟩ := ih more (by simpa using length)
      exact ⟨d₁, _, ls₂, (List.append_assoc ..).symm, .cons first front, back⟩

theorem strip (h : ShownAll d as insides ls d') (pinned : Bool) :
    ShownAll d (as.map (stripUnless pinned)) insides ls d' := by
  induction h with
  | nil => exact .nil _
  | cons first _ ih => exact .cons (first.strip pinned) ih

end ShownAll

inductive StillAll (d : Conditional) : List Decl → List Lexeme → Prop
  | nil : StillAll d [] []
  | cons {a : Decl} {as : List Decl} {own ls : List Lexeme}
      (first : ShowsAll Atom.lexeme? d a.pieces own d) (more : StillAll d as ls) :
      StillAll d (a :: as) (own ++ ls)

namespace StillAll

theorem pieces (h : StillAll d as ls) :
    ShowsAll Atom.lexeme? d (as.flatMap Decl.pieces) ls d := by
  induction h with
  | nil => exact .nil _
  | cons first _ ih => exact first.append ih

theorem perm (h : StillAll d as ls) (moved : as.Perm bs) :
    ∃ ls', ls'.Perm ls ∧ StillAll d bs ls' := by
  induction moved generalizing ls with
  | nil => exact ⟨ls, .refl ls, h⟩
  | cons a _ ih =>
    cases h with
    | @cons _ _ own _ first more =>
      obtain ⟨ls', same, still⟩ := ih more
      exact ⟨own ++ ls', same.append_left own, .cons first still⟩
  | swap a b as =>
    cases h with
    | cons first more =>
      cases more with
      | cons second more =>
        exact ⟨_, List.perm_append_comm_assoc .., .cons second (.cons first more)⟩
  | trans _ _ ih ih' =>
    obtain ⟨ls₁, same, still⟩ := ih h
    obtain ⟨ls₂, same', still'⟩ := ih' still
    exact ⟨ls₂, same'.trans same, still'⟩

end StillAll

namespace ShownAll

variable {pinned : Bool}

theorem still (h : ShownAll d as insides ls d') (calm : ∀ a ∈ as, ∀ t ∈ a.leading, t.isCalm)
    (movable : (words pinned as insides).all Marker.movable) :
    d' = d ∧ StillAll d (as.map (stripUnless pinned)) ls := by
  induction h with
  | nil => exact ⟨rfl, .nil⟩
  | @cons a d m d₁ d' before own ls inside as insides first _ ih =>
    rw [List.forall_mem_cons] at calm
    simp only [words, List.zipWith_cons_cons, List.all_cons, Bool.and_eq_true] at movable
    have contained := (Bool.and_eq_true_iff.mp movable.1).1
    rw [List.map_append, map_kind_markers] at contained
    obtain rfl := first.still calm.1 contained
    obtain ⟨rfl, rest⟩ := ih calm.2 movable.2
    exact ⟨rfl, .cons (first.strip pinned).pieces rest⟩

theorem sorted (h : ShownAll d as insides ls d') {stays : Bool} {le : Decl → Decl → Bool}
    (keeps : ∀ a b, le (stripUnless pinned a) (stripUnless pinned b) = le a b)
    (settled : Decl.settled stays le as (words pinned as insides))
    (calm : stays = false → ∀ a ∈ as, ∀ t ∈ a.leading, t.isCalm) :
    ∃ ls', ls'.Perm ls ∧ ShowsAll Atom.lexeme? d
      ((sortUnless stays le (as.map (stripUnless pinned))).flatMap Decl.pieces) ls' d' := by
  rw [sortUnless_map stays le keeps]
  cases stays with
  | true => exact ⟨ls, .refl ls, (h.strip pinned).pieces⟩
  | false =>
    simp only [Decl.settled, Bool.false_or, Bool.or_eq_true, decide_eq_true_eq] at settled
    obtain inOrder | movable := settled
    · have same : sortUnless false le as = as := List.mergeSort_of_pairwise inOrder
      rw [same]
      exact ⟨ls, .refl ls, (h.strip pinned).pieces⟩
    · obtain ⟨rfl, still⟩ := h.still (calm rfl) movable
      obtain ⟨ls', same, moved⟩ := still.perm ((sortUnless_perm false le as).symm.map _)
      exact ⟨ls', same, moved.pieces⟩

end ShownAll

end Decl

structure Block.Shown (f : Block Decl → Block Decl) (b : Block Decl) (w : Insides)
    (d : Conditional) (ls : List Lexeme) (d' : Conditional) : Prop where
  decls : Decl.ShownAll d (b.decls.map (Decl.mapBlocks f))
    (w.imports ++ w.attributes ++ w.members) ls d'
  plain : ∀ a ∈ b.imports ++ b.attributes, a.block = none
  imports : w.imports.length = b.imports.length
  attributes : w.attributes.length = b.attributes.length

/-- Where declarations change places no dead code in front of them changes a symbol. -/
structure Block.Calm (b : Block Decl) : Prop where
  imports : b.importsGuarded = false → ∀ a ∈ b.imports, ∀ t ∈ a.leading, t.isCalm
  members : b.membersGuarded = false → ∀ a ∈ b.members, ∀ t ∈ a.leading, t.isCalm

/-- A way to arrange blocks that keeps what a second reader is shown, up to `R`. -/
structure Follows (roots : List String) (f : Block Decl → Block Decl)
    (R : List Lexeme → List Lexeme → Prop) : Prop where
  refl : ∀ ls, R ls ls
  trans : ∀ {ls ls' ls''}, R ls ls' → R ls' ls'' → R ls ls''
  append : ∀ {ls ls' ms ms'}, R ls ls' → R ms ms' → R (ls ++ ms) (ls' ++ ms')
  frame : ∀ b, ∃ pinned, (f b).braced = b.braced ∧
    (f b).openTrailing = Span.stripUnless pinned b.openTrailing ∧
    (f b).closeLeading = Span.stripUnless pinned b.closeLeading ∧ (f b).close = b.close
  parts : ∀ {b : Block Decl} {w : Insides} {d d' : Conditional} {ls : List Lexeme},
    b.settled roots w → b.Calm → b.Shown f w d ls d' →
    ∃ ls', R ls' ls ∧ ShowsAll Atom.lexeme? d (b.mapBlocks f).parts ls' d'

theorem Decl.mapBlocks_of_plain (plain : ∀ a ∈ ds, a.block = none) (f : Block Decl → Block Decl) :
    ds.map (mapBlocks f) = ds := by
  refine map_eq_self_iff.mpr fun a mem => ?_
  obtain ⟨kind, visibility, key, leading, text, block, trailing, lineIndent⟩ := a
  cases plain _ mem
  rfl

namespace Block.Shown

variable {f : Block Decl → Block Decl} {b : Block Decl} {w : Insides} {d d' : Conditional}
  {ls : List Lexeme}

theorem lists (h : b.Shown f w d ls d') : ∃ d₁ d₂ ls₁ ls₂ ls₃, ls = ls₁ ++ ls₂ ++ ls₃ ∧
    Decl.ShownAll d b.imports w.imports ls₁ d₁ ∧
    Decl.ShownAll d₁ b.attributes w.attributes ls₂ d₂ ∧
    Decl.ShownAll d₂ (b.members.map (Decl.mapBlocks f)) w.members ls₃ d' := by
  have decls := h.decls
  have plain := h.plain
  rw [List.forall_mem_append] at plain
  rw [Block.decls, List.map_append, List.map_append, Decl.mapBlocks_of_plain plain.1,
    Decl.mapBlocks_of_plain plain.2] at decls
  obtain ⟨d₂, ls', ls₃, rfl, front, members⟩ := decls.split (by simp [h.imports, h.attributes])
  obtain ⟨d₁, ls₁, ls₂, rfl, imports, attributes⟩ := front.split h.imports
  exact ⟨d₁, d₂, ls₁, ls₂, ls₃, rfl, imports, attributes, members⟩

end Block.Shown

theorem follows_arrange (roots : List String) :
    Follows roots (Block.arrange roots) List.Perm where
  refl := .refl
  trans := .trans
  append := .append
  frame b := ⟨b.membersGuarded, by rw [Block.arrange_eq]; exact ⟨rfl, rfl, rfl, rfl⟩⟩
  parts {b w d d' ls} settled calm shown := by
    obtain ⟨d₁, d₂, ls₁, ls₂, ls₃, rfl, imports, attributes, members⟩ := shown.lists
    simp only [Block.settled, Bool.and_eq_true] at settled
    have plain := shown.plain
    rw [List.forall_mem_append] at plain
    have settledMembers : Decl.settled b.membersGuarded Decl.memberLE
        (b.members.map (Decl.mapBlocks (Block.arrange roots)))
        (Decl.words b.membersGuarded (b.members.map (Decl.mapBlocks (Block.arrange roots)))
          w.members) := by
      rw [Decl.words_mapBlocks]
      simp only [Decl.settled, List.pairwise_map, Bool.or_eq_true, decide_eq_true_eq] at settled ⊢
      refine settled.2.imp_left fun sorted => sorted.imp_right fun inOrder => inOrder.imp ?_
      intro x y before
      rw [← before]
      exact Decl.memberLE_congr (by simp [Decl.mapBlocks_eq]) (by simp [Decl.mapBlocks_eq])
    obtain ⟨ls₁', sameImports, showsImports⟩ := imports.sorted
      (fun _ _ => Decl.importLE_congr roots ⟨rfl, rfl⟩ ⟨rfl, rfl⟩) settled.1 calm.imports
    obtain ⟨ls₃', sameMembers, showsMembers⟩ := members.sorted
      (fun _ _ => Decl.memberLE_congr ⟨rfl, rfl, rfl⟩ ⟨rfl, rfl, rfl⟩) settledMembers
      fun free => List.forall_mem_map.mpr fun a mem => by
        rw [Decl.mapBlocks_eq]
        exact calm.members free a mem
    have showsAttributes := (attributes.strip b.membersGuarded).pieces
    refine ⟨ls₁' ++ ls₂ ++ ls₃', (sameImports.append_right ls₂).append sameMembers, ?_⟩
    have shows := (showsImports.append showsAttributes).append showsMembers
    rw [← List.flatMap_append, ← List.flatMap_append] at shows
    refine shows.congr ?_
    rw [Block.mapBlocks_eq, Block.arrange_eq, Block.membersGuarded_mapBlocks]
    refine Block.frame_parts ?_
    simp only [List.forall_mem_append, List.forall_mem_map]
    refine ⟨fun a mem => ?_, plain.2⟩
    obtain ⟨c, inside, rfl⟩ := List.mem_map.mp ((sortUnless_perm ..).mem_iff.mp mem)
    exact plain.1 c inside

/-- Region lines go where nothing pins them, and every declaration keeps its place. -/
def Block.dropRegions (b : Block Decl) : Block Decl :=
  { b with
    openTrailing := Span.stripUnless b.membersGuarded b.openTrailing
    imports := b.imports.map (Decl.stripUnless b.membersGuarded)
    attributes := b.attributes.map (Decl.stripUnless b.membersGuarded)
    members := b.members.map (Decl.stripUnless b.membersGuarded)
    closeLeading := Span.stripUnless b.membersGuarded b.closeLeading }

theorem follows_dropRegions (roots : List String) : Follows roots Block.dropRegions Eq where
  refl _ := rfl
  trans := .trans
  append same same' := by rw [same, same']
  frame b := ⟨b.membersGuarded, rfl, rfl, rfl, rfl⟩
  parts {b w d d' ls} _ _ shown := by
    obtain ⟨d₁, d₂, ls₁, ls₂, ls₃, rfl, imports, attributes, members⟩ := shown.lists
    have plain := shown.plain
    rw [List.forall_mem_append] at plain
    refine ⟨_, rfl, ?_⟩
    have shows := ((imports.strip b.membersGuarded).pieces.append
      (attributes.strip b.membersGuarded).pieces).append (members.strip b.membersGuarded).pieces
    rw [← List.flatMap_append, ← List.flatMap_append] at shows
    refine shows.congr ?_
    rw [Block.mapBlocks_eq, Block.dropRegions, Block.membersGuarded_mapBlocks]
    refine Block.frame_parts ?_
    simp only [List.forall_mem_append, List.forall_mem_map]
    exact plain

end CSharpTidy
