import CSharpTidy.Proofs.Preservation
import CSharpTidy.Proofs.RoundTrip
import CSharpTidy.Proofs.SpanSpacing

/- A tree as the list of its parts in print order. A part is code that spacing does not look into:
   a declaration without a body, the opening of a container, or its closing text. Spacing goes
   through the parts one by one. -/
namespace CSharpTidy

/-- What spacing asks of the blanks in front of a part: nothing, no line end, or one blank line. -/
inductive Spacing where
  | free | packed | spaced
  deriving DecidableEq, Repr

def Spacing.apply (ending : String) : Spacing → Span → Span
  | .free, span => span
  | .packed, span => Span.stripLeading span
  | .spaced, span => Span.oneLeading ending span

@[simp] theorem Spacing.apply_free (ending : String) (span : Span) :
    Spacing.free.apply ending span = span := rfl

@[simp] theorem Spacing.apply_packed (ending : String) (span : Span) :
    Spacing.packed.apply ending span = Span.stripLeading span := rfl

@[simp] theorem Spacing.apply_spaced (ending : String) (span : Span) :
    Spacing.spaced.apply ending span = Span.oneLeading ending span := rfl

def Span.endWhen (ends : Bool) (ending : String) (span : Span) : Span :=
  if ends then Span.stripTrailing ending span else span

/-- `ends` asks that the line ends behind the part, and `indent` is the indentation that it is
given. -/
structure Part where
  spacing : Spacing
  ends : Bool
  indent : Option String
  leading : Span
  text : String
  trailing : Span
  deriving DecidableEq, Repr

namespace Part

def print (p : Part) : String :=
  Span.text p.leading ++ p.text ++ Span.text p.trailing

def printAll : List Part → String
  | [] => ""
  | p :: rest => p.print ++ printAll rest

@[simp] theorem printAll_append (ps qs : List Part) :
    printAll (ps ++ qs) = printAll ps ++ printAll qs := by
  induction ps with
  | nil => simp [printAll]
  | cons p ps ih => simp only [List.cons_append, printAll, ih, String.append_assoc]

def spaceLeading (ending : String) (p : Part) : Span :=
  match p.indent with
  | none => p.spacing.apply ending p.leading
  | some indent => Span.setIndent indent (p.spacing.apply ending p.leading)

def spaceTrailing (ending : String) (p : Part) : Span :=
  Span.endWhen p.ends ending p.trailing

def space (ending : String) (p : Part) : Part :=
  { p with leading := p.spaceLeading ending, trailing := p.spaceTrailing ending }

end Part

namespace DeclKind

def spacing : DeclKind → Spacing
  | .field => .packed
  | .property | .constructor | .method | .container _ | .enum => .spaced
  | .imported _ | .other _ => .free

def endsLine : DeclKind → Bool
  | .field | .property | .constructor | .method | .container _ | .enum => true
  | .imported _ | .other _ => false

end DeclKind

namespace Decl

def part (spacing : Spacing) (ends lineStart : Bool) (d : Decl) : Part :=
  ⟨spacing, ends, if lineStart then d.lineIndent else none, d.leading,
    d.text ++ Block.printOption d.block, d.trailing⟩

def importParts (lineStart : Bool) : List Decl → List Part
  | [] => []
  | d :: rest => d.part .spaced true lineStart :: rest.map (part .packed true true)

def attributeParts (lineStart : Bool) : List Decl → List Part
  | [] => []
  | d :: rest => d.part .free false lineStart :: attributeParts (Span.endsLine d.trailing) rest

end Decl

namespace Block

def opensLine (b : Block Decl) : Bool :=
  (b.braced || !b.openTrailing.isEmpty) && Span.isBlank b.openTrailing &&
    (!b.members.isEmpty || b.openTrailing.any Trivia.isEndOfLine)

def lineStartBehind (braced : Bool) (openTrailing : Span) : Bool :=
  match openTrailing.getLast? with
  | some t => t.isEndOfLine
  | none => !braced

def startsLine (b : Block Decl) : Bool :=
  b.opensLine || lineStartBehind b.braced b.openTrailing

def openingPart (whole : Part) (b : Block Decl) : Part :=
  { whole with ends := b.opensLine, trailing := b.openTrailing }

def closingSpacing (b : Block Decl) : Spacing :=
  if b.braced then .packed else .free

def closingPart (whole : Part) (b : Block Decl) : Part :=
  ⟨b.closingSpacing, whole.ends, none, b.closeLeading, b.close, whole.trailing⟩

end Block

mutual

/-- The parts of a member. With `packed`, no blank line may stand before it, whatever its kind. -/
def Decl.memberParts (packed lineStart : Bool) : Decl → List Part
  | ⟨kind, _, _, leading, text, block, trailing, lineIndent⟩ =>
      Block.partsOption ⟨if packed then .packed else kind.spacing, kind.endsLine,
        if lineStart then lineIndent else none, leading, text, trailing⟩ block

/-- The parts of a declaration, given as a whole part but for its body. -/
def Block.partsOption (whole : Part) : Option (Block Decl) → List Part
  | none => [whole]
  | some b => b.openingPart whole :: (Block.parts b ++ [b.closingPart whole])

def Block.parts : Block Decl → List Part
  | ⟨braced, openTrailing, imports, attributes, members, closeLeading, close⟩ =>
      let atImports := Block.startsLine
        ⟨braced, openTrailing, imports, attributes, members, closeLeading, close⟩
      let atAttributes := !imports.isEmpty || atImports
      Decl.importParts atImports imports ++ Decl.attributeParts atAttributes attributes ++
        Decl.memberPartsAll (braced && imports.isEmpty && attributes.isEmpty)
          (Decl.lineStartAfter atAttributes attributes) members

def Decl.memberPartsAll (packed lineStart : Bool) : List Decl → List Part
  | [] => []
  | d :: rest => Decl.memberParts packed lineStart d ++
      Decl.memberPartsAll false (d.kind.endsLine || Span.endsLine d.trailing) rest

end

theorem Decl.print_part (spacing : Spacing) (ends lineStart : Bool) (d : Decl) :
    (d.part spacing ends lineStart).print = d.print := by
  simp only [Part.print, part, Decl.print_eq, String.append_assoc]

theorem Decl.printAll_importParts (lineStart : Bool) (ds : List Decl) :
    Part.printAll (importParts lineStart ds) = printAll ds := by
  have rest : ∀ ds : List Decl, Part.printAll (ds.map (part .packed true true)) = printAll ds := by
    intro ds
    induction ds with
    | nil => rfl
    | cons d ds ih => simp only [List.map_cons, Part.printAll, printAll, print_part, ih]
  cases ds with
  | nil => rfl
  | cons d ds => simp only [importParts, Part.printAll, printAll, print_part, rest]

theorem Decl.printAll_attributeParts (lineStart : Bool) (ds : List Decl) :
    Part.printAll (attributeParts lineStart ds) = printAll ds := by
  induction ds generalizing lineStart with
  | nil => rfl
  | cons d ds ih => simp only [attributeParts, Part.printAll, printAll, print_part, ih]

mutual

theorem Decl.printAll_memberParts (packed lineStart : Bool) : (d : Decl) →
    Part.printAll (d.memberParts packed lineStart) = d.print
  | ⟨kind, _, _, leading, text, block, trailing, lineIndent⟩ => by
    rw [Decl.memberParts, Block.printAll_partsOption, Decl.print]

theorem Block.printAll_partsOption (whole : Part) : (block : Option (Block Decl)) →
    Part.printAll (Block.partsOption whole block) =
      Span.text whole.leading ++ whole.text ++ Block.printOption block ++ Span.text whole.trailing
  | none => by
    simp only [Block.partsOption, Part.printAll, Part.print, Block.printOption, String.append_empty]
  | some b => by
    have inner := Block.print_eq_parts b
    simp only [Block.partsOption, Part.printAll, Part.printAll_append, Block.printOption, inner,
      Part.print, Block.openingPart, Block.closingPart, String.append_assoc, String.append_empty]

theorem Block.print_eq_parts : (b : Block Decl) →
    b.print = Span.text b.openTrailing ++ Part.printAll b.parts ++ Span.text b.closeLeading ++ b.close
  | ⟨braced, openTrailing, imports, attributes, members, closeLeading, close⟩ => by
    simp only [Block.print, Block.parts, Part.printAll_append, Decl.printAll_importParts,
      Decl.printAll_attributeParts, Decl.printAll_memberPartsAll, String.append_assoc]

theorem Decl.printAll_memberPartsAll (packed lineStart : Bool) : (ds : List Decl) →
    Part.printAll (Decl.memberPartsAll packed lineStart ds) = Decl.printAll ds
  | [] => rfl
  | d :: rest => by
    simp only [Decl.memberPartsAll, Part.printAll_append, Decl.printAll,
      Decl.printAll_memberParts packed lineStart d, Decl.printAll_memberPartsAll _ _ rest]

end

@[simp] theorem Span.endsLine_stripTrailing (ending : String) (span : Span) :
    (Span.stripTrailing ending span).endsLine = true := by
  simp [Span.endsLine, Span.stripTrailing_eq, Trivia.lineEnd, Trivia.isEndOfLine]

namespace Decl

theorem print_reindent_part {spacing : Spacing} {ends lineStart : Bool} {ending : String}
    {d d' : Decl} (text : d'.text = d.text) (block : d'.block = d.block)
    (indent : d'.lineIndent = d.lineIndent)
    (leading : d'.leading = spacing.apply ending d.leading)
    (trailing : d'.trailing = Span.endWhen ends ending d.trailing) :
    (d'.reindent lineStart).print = ((d.part spacing ends lineStart).space ending).print := by
  rw [Decl.print_eq]
  simp only [Part.print, Part.space, Part.spaceLeading, Part.spaceTrailing, part, reindent, indent]
  cases d.lineIndent with
  | none => simp [text, block, leading, trailing, String.append_assoc]
  | some w => cases lineStart <;> simp [text, block, leading, trailing, String.append_assoc]

theorem printAll_spaceImports (ending : String) (lineStart : Bool) (ds : List Decl) :
    printAll (reindentAll lineStart (spaceImports ending ds)) =
      Part.printAll ((importParts lineStart ds).map (Part.space ending)) := by
  have packed : ∀ (lineStart : Bool) (d : Decl), ((d.withoutBlank ending).reindent lineStart).print =
      ((d.part .packed true lineStart).space ending).print :=
    fun _ d => print_reindent_part rfl rfl rfl rfl rfl
  have rest : ∀ ds : List Decl, printAll (reindentAll true (ds.map (withoutBlank ending))) =
      Part.printAll ((ds.map (part .packed true true)).map (Part.space ending)) := by
    intro ds
    induction ds with
    | nil => rfl
    | cons d ds ih =>
      have ends : Span.endsLine (d.withoutBlank ending).trailing = true :=
        Span.endsLine_stripTrailing ..
      simp only [List.map_cons, reindentAll, printAll, Part.printAll, ends, ih, packed]
  cases ds with
  | nil => rfl
  | cons d ds =>
    have ends : Span.endsLine ((d.withoutBlank ending).withLeadingBlank ending).trailing = true :=
      Span.endsLine_stripTrailing ..
    have first : (((d.withoutBlank ending).withLeadingBlank ending).reindent lineStart).print =
        ((d.part .spaced true lineStart).space ending).print :=
      print_reindent_part rfl rfl rfl
        (by simp [withLeadingBlank, withoutBlank, withoutTrailingBlank, withoutLeadingBlank,
          Spacing.apply, Span.oneLeading]) rfl
    simp only [spaceImports, importParts, List.map_cons, reindentAll, printAll, Part.printAll, ends,
      rest, first]

theorem printAll_spaceAttributes (ending : String) (lineStart : Bool) (ds : List Decl) :
    printAll (reindentAll lineStart ds) =
      Part.printAll ((attributeParts lineStart ds).map (Part.space ending)) := by
  induction ds generalizing lineStart with
  | nil => rfl
  | cons d ds ih =>
    have same : (d.reindent lineStart).print = ((d.part .free false lineStart).space ending).print :=
      print_reindent_part rfl rfl rfl rfl rfl
    simp only [attributeParts, List.map_cons, reindentAll, printAll, Part.printAll, ih, same]

theorem spaceMember_leading (ending : String) (d : Decl) :
    (d.spaceMember ending).leading = d.kind.spacing.apply ending d.leading := by
  unfold spaceMember DeclKind.spacing
  cases d.kind <;> rfl

theorem spaceMember_trailing (ending : String) (d : Decl) :
    (d.spaceMember ending).trailing = Span.endWhen d.kind.endsLine ending d.trailing := by
  unfold spaceMember DeclKind.endsLine
  cases d.kind <;> rfl

end Decl

theorem Spacing.stripLeading_apply (ending : String) (spacing : Spacing) (span : Span) :
    Span.stripLeading (spacing.apply ending span) = Span.stripLeading span := by
  cases spacing <;> simp [apply]

/-- A first member behind a brace is packed, others are spaced as their kind says. -/
def Decl.packWhen (packed : Bool) (d : Decl) : Decl :=
  if packed then d.withoutLeadingBlank else d

theorem Decl.spaceMembers_cons (ending : String) (packed : Bool) (d : Decl) (ds : List Decl) :
    spaceMembers ending packed (d :: ds) =
      (d.spaceMember ending).packWhen packed :: spaceMembers ending false ds := by
  have rest : spaceMembers ending false ds = ds.map (spaceMember ending) := by
    unfold spaceMembers
    split <;> simp_all
  rw [rest]
  rfl

theorem Decl.print_space_member (ending : String) (packed lineStart : Bool) (d : Decl) :
    ((d.spaceMember ending).packWhen packed |>.reindent lineStart).print =
      ((d.part (if packed then .packed else d.kind.spacing) d.kind.endsLine lineStart).space
        ending).print := by
  have kept := Decl.Carried.spaceMember ending d
  refine print_reindent_part ?_ ?_ ?_ ?_ ?_
  all_goals cases packed <;> simp [packWhen, withoutLeadingBlank, kept.text, kept.block,
    kept.lineIndent, spaceMember_leading, spaceMember_trailing, Spacing.stripLeading_apply]

theorem Decl.endsLine_spaceMember (ending : String) (packed : Bool) (d : Decl) :
    Span.endsLine ((d.spaceMember ending).packWhen packed).trailing =
      (d.kind.endsLine || Span.endsLine d.trailing) := by
  have trailing : ((d.spaceMember ending).packWhen packed).trailing =
      Span.endWhen d.kind.endsLine ending d.trailing := by
    rw [← spaceMember_trailing]
    cases packed <;> rfl
  rw [trailing, Span.endWhen]
  cases d.kind.endsLine <;> simp

namespace Block

theorem spaceOpening_eq (ending : String) (b : Block Decl) :
    b.spaceOpening ending = Span.endWhen b.opensLine ending b.openTrailing := by
  unfold spaceOpening Span.endWhen
  split
  · rename_i opens
    have blank : Span.isBlank b.openTrailing := by
      simp only [Bool.and_eq_true] at opens
      exact opens.1.2
    have noContent : Span.contentEnd b.openTrailing = [] :=
      List.rdropWhile_eq_nil_iff.mpr (List.all_eq_true.mp blank)
    rw [if_pos (by exact opens), Span.stripTrailing_eq, noContent, List.nil_append]
  · rename_i shut
    rw [if_neg (by exact shut)]

theorem spaceOpening_map (ending : String) (f : Decl → Decl) (b : Block Decl) :
    spaceOpening ending { b with members := b.members.map f } = b.spaceOpening ending := by
  simp only [spaceOpening, List.isEmpty_map]

theorem startsLine_eq (ending : String) (b : Block Decl) :
    lineStartBehind b.braced (b.spaceOpening ending) = b.startsLine := by
  rw [spaceOpening_eq, startsLine, Span.endWhen]
  cases b.opensLine with
  | false => simp
  | true => simp [lineStartBehind, Span.stripTrailing_eq, Trivia.lineEnd, Trivia.isEndOfLine]

theorem reindent_eq (b : Block Decl) :
    let atImports := lineStartBehind b.braced b.openTrailing
    let atAttributes := Decl.lineStartAfter atImports b.imports
    b.reindent = { b with
      imports := Decl.reindentAll atImports b.imports
      attributes := Decl.reindentAll atAttributes b.attributes
      members := Decl.reindentAll (Decl.lineStartAfter atAttributes b.attributes) b.members } := rfl

theorem lineStartAfter_spaceImports (ending : String) (lineStart : Bool) (ds : List Decl) :
    Decl.lineStartAfter lineStart (Decl.spaceImports ending ds) = (!ds.isEmpty || lineStart) := by
  cases ds using List.reverseRecOn with
  | nil => rfl
  | append_singleton init d =>
    cases init with
    | nil => exact Span.endsLine_stripTrailing ..
    | cons first init =>
      simp only [Decl.lineStartAfter, List.cons_append, Decl.spaceImports, List.map_append,
        List.map_cons, List.map_nil]
      rw [← List.cons_append, List.getLast?_concat]
      exact Span.endsLine_stripTrailing ..

end Block

mutual

theorem Decl.print_space (ending : String) (packed lineStart : Bool) : (d : Decl) →
    (((d.mapBlocks (Block.space ending)).spaceMember ending).packWhen packed
      |>.reindent lineStart).print =
      Part.printAll ((d.memberParts packed lineStart).map (Part.space ending))
  | ⟨kind, visibility, key, leading, text, none, trailing, lineIndent⟩ => by
    rw [Decl.mapBlocks_eq, Decl.print_space_member]
    simp [Decl.memberParts, Block.partsOption, Part.printAll, Decl.part, Block.printOption]
  | ⟨kind, visibility, key, leading, text, some b, trailing, lineIndent⟩ => by
    have inner := Block.print_normalize b ending
    rw [Block.normalize] at inner
    rw [Decl.mapBlocks_eq, Decl.print_space_member]
    simp only [Decl.memberParts, Block.partsOption, Decl.part, Option.map_some, Block.printOption,
      inner, List.map_cons, List.map_append, List.map_nil, Part.printAll, Part.printAll_append]
    simp only [Part.print, Part.space, Part.spaceLeading, Part.spaceTrailing, Block.openingPart,
      Block.closingPart, String.append_assoc, String.append_empty]

theorem Block.print_normalize : (b : Block Decl) → (ending : String) →
    (b.normalize ending).print = Span.text (Span.endWhen b.opensLine ending b.openTrailing) ++
      Part.printAll (b.parts.map (Part.space ending)) ++
      Span.text (b.closingSpacing.apply ending b.closeLeading) ++ b.close
  | ⟨braced, openTrailing, imports, attributes, members, closeLeading, close⟩, ending => by
    have opening := Block.startsLine_eq ending
      ⟨braced, openTrailing, imports, attributes, members, closeLeading, close⟩
    have mapped := Block.spaceOpening_map ending (Decl.mapBlocks (Block.space ending))
      ⟨braced, openTrailing, imports, attributes, members, closeLeading, close⟩
    have closing : (if braced then Span.stripLeading closeLeading else closeLeading) =
        (Block.closingSpacing ⟨braced, openTrailing, imports, attributes, members, closeLeading,
          close⟩).apply ending closeLeading := by
      cases braced <;> rfl
    simp only at opening
    rw [Block.normalize, Block.mapBlocks_eq, Block.print_eq]
    simp only [Block.space, Block.reindent_eq, Decl.printAll_spaceImports, Decl.printAll_space,
      Block.lineStartAfter_spaceImports]
    rw [Decl.printAll_spaceAttributes ending, mapped, opening, closing,
      Block.spaceOpening_eq, Block.parts]
    simp only [List.map_append, Part.printAll_append, String.append_assoc]

theorem Decl.printAll_space (ending : String) (packed lineStart : Bool) : (ds : List Decl) →
    Decl.printAll (Decl.reindentAll lineStart
      (Decl.spaceMembers ending packed (ds.map (Decl.mapBlocks (Block.space ending))))) =
      Part.printAll ((Decl.memberPartsAll packed lineStart ds).map (Part.space ending))
  | [] => rfl
  | d :: rest => by
    have kind : (d.mapBlocks (Block.space ending)).kind = d.kind := by rw [Decl.mapBlocks_eq]
    have trailing : (d.mapBlocks (Block.space ending)).trailing = d.trailing := by
      rw [Decl.mapBlocks_eq]
    rw [List.map_cons, Decl.spaceMembers_cons, Decl.reindentAll, Decl.printAll,
      Decl.endsLine_spaceMember, kind, trailing, Decl.print_space ending packed lineStart d,
      Decl.printAll_space ending false _ rest, Decl.memberPartsAll, List.map_append,
      Part.printAll_append]

end

end CSharpTidy
