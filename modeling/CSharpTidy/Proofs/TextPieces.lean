import CSharpTidy.Proofs.BlankLineShape

/- The pieces of text that a tree is printed from. No token and no piece of trivia is cut off inside
   of a line break. So what a text shares with its pieces, wherever else it is cut, is known of all
   pieces of its tree; tidying adds no pieces but line ends, and the printed tree has it again. -/
namespace CSharpTidy

/-- No line break is cut in two between the texts. -/
def WholeBreaks (s t : List Char) : Prop :=
  s.getLast? = some '\r' → t.head? ≠ some '\n'

namespace WholeBreaks

variable {s : List Char}

theorem of_inline (h : ∀ c ∈ s, isLineBreak c = false) (t : List Char) : WholeBreaks s t := by
  intro last
  exact absurd (h '\r' (List.mem_of_getLast? last)) (by decide)

theorem of_endsSolid (h : EndsSolid s) (t : List Char) : WholeBreaks s t := by
  obtain ⟨front, c, back, rfl, solid, inline⟩ := h
  intro last
  rw [List.getLast?_append_of_ne_nil _ (List.cons_ne_nil c back)] at last
  rcases List.mem_cons.mp (List.mem_of_getLast? last) with rfl | inside
  · exact absurd solid (by decide)
  · exact absurd (inline '\r' inside) (by decide)

theorem of_head {t : List Char} (h : ∀ c, t.head? = some c → isLineBreak c = false)
    (s : List Char) : WholeBreaks s t := by
  intro _ head
  exact absurd (h '\n' head) (by decide)

theorem splitBreak (h : IsTerminator (String.ofList (splitBreak s).1)) :
    WholeBreaks (CSharpTidy.splitBreak s).1 (CSharpTidy.splitBreak s).2 := by
  intro last
  refine splitBreak_whole ?_
  rcases h with lineFeed | lone | both
  · have text : (CSharpTidy.splitBreak s).1 = ['\n'] := by
      simpa using congrArg String.toList lineFeed
    simp [text] at last
  · simpa using congrArg String.toList lone
  · have text : (CSharpTidy.splitBreak s).1 = ['\r', '\n'] := by
      simpa using congrArg String.toList both
    simp [text] at last

end WholeBreaks

/-- A property that a text has if its pieces have it. -/
structure Joins (P : List Char → Prop) : Prop where
  nil : P []
  append : ∀ {s t : List Char}, P s → P t → P (s ++ t)

/-- A property that the pieces of a text have, too, if no line break is cut in two. -/
structure Piecewise (P : List Char → Prop) : Prop extends Joins P where
  split : ∀ {s t : List Char}, WholeBreaks s t → P (s ++ t) → P s ∧ P t

def Span.Texts (P : List Char → Prop) (span : Span) : Prop :=
  ∀ t ∈ span, P t.text.toList

structure Token.Texts (P : List Char → Prop) (t : Token) : Prop where
  leading : t.leading.Texts P
  text : P t.text.toList
  trailing : t.trailing.Texts P

variable {span : Span} {b : Block Decl} {ds : List Decl} {f : SourceFile}

namespace Span.Texts

variable {P : List Char → Prop}

theorem nil : Span.Texts P [] := by
  simp [Span.Texts]

theorem cons {t : Trivia} (first : P t.text.toList) (rest : span.Texts P) :
    Span.Texts P (t :: span) :=
  List.forall_mem_cons.mpr ⟨first, rest⟩

variable {a : Span}

theorem append {b : Span} (first : a.Texts P) (second : b.Texts P) : Span.Texts P (a ++ b) :=
  List.forall_mem_append.mpr ⟨first, second⟩

theorem subset {b : Span} (h : b.Texts P) (sub : a ⊆ b) : a.Texts P :=
  fun t mem => h t (sub mem)

theorem joined (h : span.Texts P) (joins : Joins P) : P (Span.text span).toList := by
  induction span with
  | nil => exact joins.nil
  | cons t span ih =>
    obtain ⟨first, rest⟩ := List.forall_mem_cons.mp h
    rw [Span.text_cons, String.toList_append]
    exact joins.append first (ih rest)

end Span.Texts

namespace Piece

theorem afterDisabled_head (s : List Char) :
    ∀ c, (afterDisabled s).head? = some c → isLineBreak c = false := by
  fun_induction afterDisabled s with
  | case1 => simp
  | case2 c rest found =>
    intro d head
    obtain rfl : c = d := by simpa using head
    by_contra breaks
    rw [not_atConditional_of_break (by simpa using breaks)] at found
    cases found
  | case3 => simp
  | case4 c rest _ b rest' ended ih => exact ih

end Piece

namespace Cursor

section
variable {P : List Char → Prop} (piecewise : Piecewise P)
include piecewise

variable {c c' : Cursor}

theorem terminator_texts (h : P c.rest) : c.terminator.1.Texts P ∧ P c.terminator.2.rest := by
  rcases c.terminator_cases with ⟨nothing, -⟩ | ⟨terminator, line, rest⟩
  · rw [nothing]
    exact ⟨.nil, h⟩
  · rw [← splitBreak_append c.rest] at h
    obtain ⟨front, back⟩ := piecewise.split (.splitBreak terminator) h
    rw [line, rest]
    exact ⟨.cons (by simpa [Trivia.lineEnd] using front) .nil, back⟩

theorem inlinePiece_texts {t : Trivia} (found : c.inlinePiece = .ok (some (t, c'))) (h : P c.rest) :
    P t.text.toList ∧ P c'.rest := by
  have text := congrArg String.toList (inlinePiece_text found)
  simp only [ahead, String.toList_append, String.toList_ofList] at text
  rw [← text] at h
  refine piecewise.split ?_ h
  cases blank : t.isBlank with
  | false => exact .of_endsSolid (inlinePiece_firm found blank) _
  | true =>
    obtain ⟨inline, lexed, -, -⟩ := inlinePiece_lexed found
    have white : t.isWhitespace := by simpa [Trivia.isBlank, inline] using blank
    exact .of_inline (fun a mem => isLineBreak_of_isSpace ((lexed.whitespace white).2 a mem)) _

theorem deadBranch_texts (h : P c.rest) : c.deadBranch.1.Texts P ∧ P c.deadBranch.2.rest := by
  obtain ⟨line, behind⟩ := terminator_texts piecewise h
  rw [← textBefore_append (Piece.afterDisabled_suffix c.terminator.2.rest)] at behind
  obtain ⟨dead, left⟩ := piecewise.split (.of_head (Piece.afterDisabled_head _) _) behind
  refine ⟨line.append ?_, left⟩
  split
  · exact .nil
  · exact .cons (by simpa using dead) .nil

theorem directive_texts (found : c.directive = .ok (span, c')) (h : P c.rest) :
    span.Texts P ∧ P c'.rest := by
  have whole : c.rest.takeWhile (fun a => !isLineBreak a) ++ Literal.afterLine c.rest = c.rest :=
    List.takeWhile_append_dropWhile
  rw [← whole] at h
  have inline : ∀ a ∈ c.rest.takeWhile (fun a => !isLineBreak a), isLineBreak a = false :=
    fun a mem => by simpa using List.mem_takeWhile_imp mem
  obtain ⟨line, behind⟩ := piecewise.split (.of_inline inline _) h
  simp only [directive] at found
  split at found
  · cases found
  · split at found
    · cases found
      exact ⟨.cons (by simpa using line) .nil, behind⟩
    · cases found
      refine ⟨.cons (by simpa using line) (deadBranch_texts piecewise ?_).1,
        (deadBranch_texts piecewise ?_).2⟩ <;> exact behind

theorem leadingPiece_texts (found : c.leadingPiece = .ok (some (span, c'))) (h : P c.rest) :
    span.Texts P ∧ P c'.rest := by
  unfold leadingPiece at found
  split at found
  · cases found
  · split at found
    · have ended := terminator_texts piecewise h
      rwa [Option.some.inj (Except.ok.inj found)] at ended
    · split at found
      · split at found
        · cases found
        · rename_i directed
          cases found
          exact directive_texts piecewise directed h
      · split at found
        · cases found
        · cases found
        · rename_i inline
          cases found
          obtain ⟨first, left⟩ := inlinePiece_texts piecewise inline h
          exact ⟨.cons first .nil, left⟩

theorem leading_texts (found : c.leading = .ok (span, c')) (h : P c.rest) :
    span.Texts P ∧ P c'.rest := by
  fun_induction leading c generalizing span c' with
  | case1 => cases found
  | case2 =>
    cases found
    exact ⟨.nil, h⟩
  | case3 => cases found
  | case4 c s c₁ piece more c₂ rest ih =>
    cases found
    obtain ⟨first, behind⟩ := leadingPiece_texts piecewise piece h
    obtain ⟨others, left⟩ := ih rest behind
    exact ⟨first.append others, left⟩

theorem trailing_texts (found : c.trailing = .ok (span, c')) (h : P c.rest) :
    span.Texts P ∧ P c'.rest := by
  fun_induction trailing c generalizing span c' with
  | case1 => cases found
  | case2 c _ =>
    have ended := terminator_texts piecewise h
    rwa [Except.ok.inj found] at ended
  | case3 => cases found
  | case4 c t c₁ piece more c₂ rest ih =>
    cases found
    obtain ⟨first, behind⟩ := inlinePiece_texts piecewise piece h
    obtain ⟨others, left⟩ := ih rest behind
    exact ⟨.cons first others, left⟩

theorem lexeme_texts {a : Char} {rest : List Char} {l : Lexeme}
    (found : c.lexeme a rest = .ok (l, c')) (solid : isVoid a = false) (h : P (a :: rest)) :
    P l.text.toList ∧ P c'.rest := by
  have text := congrArg String.toList (lexeme_text found)
  simp only [ahead, String.toList_append, String.toList_ofList] at text
  rw [← text] at h
  exact piecewise.split (.of_endsSolid (lexeme_endsSolid found solid) _) h

theorem tokens_texts {s : TokenStream} (found : c.tokens = .ok s) (h : P c.rest) :
    (∀ t ∈ s.tokens, t.Texts P) ∧ s.tail.Texts P := by
  fun_induction Cursor.tokens c generalizing s with
  | case1 => cases found
  | case2 c leading c₁ lead ended =>
    cases found
    exact ⟨by simp, (leading_texts piecewise lead h).1⟩
  | case3 => cases found
  | case4 => cases found
  | case5 => cases found
  | case6 => cases found
  | case7 c leading c₁ lead a rest ahead₁ l c₂ lexed trailing c₃ trail s' more ih =>
    cases found
    obtain ⟨front, atLexeme⟩ := leading_texts piecewise lead h
    rw [ahead₁] at atLexeme
    obtain ⟨text, behind⟩ := lexeme_texts piecewise lexed (leading_stops lead ahead₁) atLexeme
    obtain ⟨back, left⟩ := trailing_texts piecewise trail behind
    obtain ⟨tokens, tail⟩ := ih more left
    exact ⟨List.forall_mem_cons.mpr ⟨⟨front, text, back⟩, tokens⟩, tail⟩

end

end Cursor

structure Decl.Texts (P : List Char → Prop) (d : Decl) : Prop where
  leading : d.leading.Texts P
  text : P d.text.toList
  trailing : d.trailing.Texts P
  indent : ∀ w, d.lineIndent = some w → P w.toList

structure Block.Texts (P : List Char → Prop) (b : Block Decl) : Prop where
  opening : b.openTrailing.Texts P
  decls : ∀ d ∈ b.decls, d.Texts P
  closing : b.closeLeading.Texts P
  close : P b.close.toList

inductive Block.TextsAll (P : List Char → Prop) : Block Decl → Prop
  | intro {b : Block Decl} (own : b.Texts P)
      (bodies : ∀ d ∈ b.decls, ∀ a, d.block = some a → TextsAll P a) : TextsAll P b

structure Decl.TextsAll (P : List Char → Prop) (d : Decl) : Prop where
  own : d.Texts P
  body : ∀ a, d.block = some a → a.TextsAll P

structure SourceFile.Texts (P : List Char → Prop) (f : SourceFile) : Prop where
  header : f.header.Texts P
  root : f.root.TextsAll P

section
variable {P : List Char → Prop} (joins : Joins P)
include joins

theorem Decl.printAll_texts (each : ∀ d ∈ ds, P d.print.toList) : P (Decl.printAll ds).toList := by
  induction ds with
  | nil => exact joins.nil
  | cons d rest ih =>
    obtain ⟨first, others⟩ := List.forall_mem_cons.mp each
    rw [Decl.printAll, String.toList_append]
    exact joins.append first (ih others)

theorem Block.TextsAll.printed (h : b.TextsAll P) : P b.print.toList := by
  induction h with
  | @intro b own bodies ih =>
    have decls : ∀ d ∈ b.decls, P d.print.toList := by
      intro d mem
      obtain ⟨leading, text, trailing, -⟩ := own.decls d mem
      have body : P (Block.printOption d.block).toList := by
        cases found : d.block with
        | none => exact joins.nil
        | some a => exact ih d mem a found
      rw [Decl.print_eq, String.toList_append, String.toList_append, String.toList_append]
      exact joins.append (joins.append (joins.append (leading.joined joins) text)
        body) (trailing.joined joins)
    simp only [Block.decls, List.forall_mem_append] at decls
    simp only [Block.print_eq, String.toList_append]
    exact joins.append (joins.append (joins.append (joins.append (joins.append
      (own.opening.joined joins) (Decl.printAll_texts joins decls.1.1))
      (Decl.printAll_texts joins decls.1.2)) (Decl.printAll_texts joins decls.2))
      (own.closing.joined joins)) own.close

theorem SourceFile.Texts.printed (h : f.Texts P) : P f.body.toList := by
  rw [body, String.toList_append]
  exact joins.append (h.header.joined joins) (h.root.printed joins)

end

/-! The tree of a text is made of its tokens. -/

namespace PlacedToken

structure Texts (P : List Char → Prop) (t : PlacedToken) : Prop where
  token : t.toToken.Texts P
  indent : ∀ w, t.lineIndent = some w → P w.toList

variable {P : List Char → Prop}

section
variable (joins : Joins P)
include joins

theorem texts_join {ts : List PlacedToken} (h : ∀ t ∈ ts, t.Texts P) : P (join ts).toList := by
  induction ts with
  | nil => exact joins.nil
  | cons t rest ih =>
    obtain ⟨⟨⟨-, text, trailing⟩, -⟩, others⟩ := List.forall_mem_cons.mp h
    cases rest with
    | nil => exact text
    | cons next rest =>
      simp only [join, String.toList_append]
      have leading := (others next (by simp)).token.leading
      exact joins.append (joins.append (joins.append text (trailing.joined joins))
        (leading.joined joins)) (ih others)

theorem texts_indentation (h : span.Texts P) : P span.indentation.toList := by
  refine Span.Texts.joined (h.subset fun t mem => ?_) joins
  have inLine := (List.takeWhile_prefix _).subset mem
  rw [List.mem_reverse] at inLine
  simpa using (List.takeWhile_prefix _).subset inLine

theorem place_texts {ts : List Token} (h : ∀ t ∈ ts, t.Texts P) : ∀ t ∈ place ts, t.Texts P :=
  fun t mem => ⟨h _ (mem_of_mem_place mem),
    place_indent joins.nil (fun t mem => texts_indentation joins (h t mem).leading) t mem⟩

end

end PlacedToken

open PlacedToken

section
variable {P : List Char → Prop}

theorem Block.textsAll_iff : b.TextsAll P ↔
    b.openTrailing.Texts P ∧ (∀ d ∈ b.decls, d.TextsAll P) ∧ b.closeLeading.Texts P ∧
      P b.close.toList := by
  constructor
  · rintro ⟨⟨opening, decls, closing, close⟩, bodies⟩
    exact ⟨opening, fun d mem => ⟨decls d mem, bodies d mem⟩, closing, close⟩
  · rintro ⟨opening, decls, closing, close⟩
    exact .intro ⟨opening, fun d mem => (decls d mem).own, closing, close⟩
      fun d mem => (decls d mem).body

theorem Block.CutFrom.texts (joins : Joins P) {whole : List PlacedToken}
    (tokens : ∀ t ∈ whole, t.Texts P) (h : b.CutFrom whole) (opening : b.openTrailing.Texts P)
    (closing : b.closeLeading.Texts P) (close : P b.close.toList) : b.TextsAll P := by
  induction h with
  | @intro b decls plain nested bodies ih =>
    have leads := fun d mem => (decls d mem).leads (Q := Span.Texts P) .nil
      fun t inside n => (tokens t inside).token.leading.subset (List.drop_subset ..)
    have trails := fun d mem => (decls d mem).trails (Q := Span.Texts P) .nil
      fun t inside => (tokens t inside).token.trailing
    have texts := fun d mem => (decls d mem).texts (Q := fun text => P text.toList)
      fun own _ inside => texts_join joins fun t mem => tokens t (inside.subset mem)
    refine .intro ⟨opening, fun d mem => ⟨(leads d mem).1, (texts d mem).1, (trails d mem).1, ?_⟩,
      closing, close⟩ fun d mem a body => ?_
    · intro w found
      obtain ⟨t, inside, indent⟩ := (decls d mem).indent found
      exact (tokens t inside).indent w indent
    · have member : d ∈ b.members := by
        refine (List.mem_append.mp mem).resolve_left fun preamble => ?_
        rw [plain d preamble] at body
        cases body
      refine ih d member a body ((trails d mem).2 a body) ((leads d mem).2 a body) ?_
      cases braced : a.braced with
      | true => exact (texts d mem).2 a body braced
      | false =>
        rw [((decls d mem).unclosed a body braced).2.1]
        exact joins.nil

variable {ending : String} {Q : Decl → Prop} {file : SourceFile} {d : Decl}

theorem SourceFile.ofTokens_texts (joins : Joins P) {stream : TokenStream}
    (h : ofTokens stream = .ok file) (tokens : ∀ t ∈ stream.tokens, t.Texts P)
    (tail : stream.tail.Texts P) : file.Texts P := by
  have placed := place_texts joins tokens
  obtain ⟨header, root⟩ := ofTokens_cutFrom h
  obtain ⟨openTrailing, -, closeLeading, close⟩ := ofTokens_frame h
  refine ⟨fun t mem => ?_, root.texts joins placed ?_ (closeLeading ▸ tail) ?_⟩
  · obtain ⟨token, inside, piece⟩ := header t mem
    exact (placed token inside).token.leading t piece
  · rw [openTrailing]
    exact .nil
  · rw [close]
    exact joins.nil

theorem SourceFile.parse_texts (piecewise : Piecewise P) {source : List Char}
    {symbols : List String} (h : parse source symbols = .ok file) (known : P file.body.toList) :
    file.Texts P := by
  rw [(parse_body h).2, String.toList_ofList] at known
  obtain ⟨stream, inner, tokenized, built, rfl⟩ := parse_stream h
  obtain ⟨tokens, tail⟩ := Cursor.tokens_texts piecewise tokenized known
  obtain ⟨header, root⟩ := ofTokens_texts piecewise.toJoins built tokens tail
  exact ⟨header, root⟩

theorem WholeBreaks.mark (file : SourceFile) (t : List Char) : WholeBreaks file.mark t := by
  refine .of_inline ?_ t
  unfold SourceFile.mark
  split <;> simp [isLineBreak, byteOrderMark]

/-! Both passes keep the pieces, and add line ends only. -/

theorem Span.Texts.stripUnless (h : span.Texts P) (pinned : Bool) :
    (span.stripUnless pinned).Texts P := by
  cases pinned with
  | true => exact h
  | false => exact h.subset (stripRegionsFrom_sublist [] false 0 span).subset

theorem Decl.Texts.stripUnless (h : d.Texts P) (pinned : Bool) : (d.stripUnless pinned).Texts P :=
  ⟨h.leading.stripUnless pinned, h.text, h.trailing.stripUnless pinned, h.indent⟩

theorem Span.Texts.stripLeading (h : span.Texts P) : span.stripLeading.Texts P := by
  obtain ⟨indent, strip, blanks, -, -⟩ := exists_stripLeading span
  rw [strip]
  exact .append (h.subset fun t mem => (List.takeWhile_prefix _).subset (blanks.subset mem))
    (h.subset (List.dropWhile_suffix _).subset)

theorem Span.Texts.setIndent (h : span.Texts P) {indent : String} (known : P indent.toList) :
    (span.setIndent indent).Texts P := by
  obtain ⟨before, line, rfl, inline, ended⟩ := exists_lastLine span
  rw [setIndent_append indent inline ended]
  have indented : (indentation? indent).Texts P := by
    unfold indentation?
    split
    · exact .nil
    · exact .cons known .nil
  exact .append (h.subset (List.subset_append_left ..)) (indented.append
    (h.subset fun t mem => List.mem_append_right _ ((List.dropWhile_suffix _).subset mem)))

section
variable {ending : String} (lineEnd : P ending.toList)
include lineEnd

theorem Span.Texts.endWhen (h : span.Texts P) (ends : Bool) :
    (span.endWhen ends ending).Texts P := by
  cases ends with
  | false => exact h
  | true =>
    exact .append (h.subset (List.rdropWhile_prefix _ _).subset) (.cons lineEnd .nil)

theorem Span.Texts.apply (h : span.Texts P) (spacing : Spacing) :
    (spacing.apply ending span).Texts P := by
  cases spacing with
  | free => exact h
  | packed => exact h.stripLeading
  | spaced => exact .cons lineEnd h.stripLeading

theorem Decl.Texts.respace (h : d.Texts P) (spacing : Spacing) (ends lineStart : Bool) :
    (d.respace ending spacing ends lineStart).Texts P := by
  have leading := h.leading.apply lineEnd spacing
  have trailing := h.trailing.endWhen lineEnd ends
  unfold Decl.respace reindent
  split
  · rename_i indent found
    split
    · exact ⟨leading.setIndent (h.indent indent found), h.text, trailing, h.indent⟩
    · exact ⟨leading, h.text, trailing, h.indent⟩
  · exact ⟨leading, h.text, trailing, h.indent⟩

theorem Decl.TextsAll.respace (h : d.TextsAll P) (spacing : Spacing) (ends lineStart : Bool) :
    (d.respace ending spacing ends lineStart).TextsAll P := by
  refine ⟨h.own.respace lineEnd spacing ends lineStart, ?_⟩
  rw [(Decl.respace_text ending spacing ends lineStart d).2.1]
  exact h.body

end

theorem Decl.forall_mem_spaceImports
    (each : ∀ d ∈ ds, ∀ spacing ends lineStart, Q (d.respace ending spacing ends lineStart))
    (lineStart : Bool) : ∀ d ∈ reindentAll lineStart (spaceImports ending ds), Q d := by
  rw [reindentAll_spaceImports]
  cases ds with
  | nil => simp
  | cons d rest =>
    rw [List.forall_mem_cons] at each
    simp only [List.forall_mem_cons, List.forall_mem_map]
    exact ⟨each.1 .., fun d mem => each.2 d mem ..⟩

theorem Decl.forall_mem_reindentAll (ending : String)
    (each : ∀ d ∈ ds, ∀ spacing ends lineStart, Q (d.respace ending spacing ends lineStart))
    (lineStart : Bool) : ∀ d ∈ reindentAll lineStart ds, Q d := by
  induction ds generalizing lineStart with
  | nil => simp [reindentAll]
  | cons d rest ih =>
    rw [List.forall_mem_cons] at each
    rw [reindentAll, List.forall_mem_cons, ← respace_free ending]
    exact ⟨each.1 .., ih each.2 _⟩

theorem Block.forall_mem_space
    (each : ∀ d ∈ b.decls, ∀ spacing ends lineStart, Q (d.respace ending spacing ends lineStart)) :
    ∀ d ∈ (b.space ending).decls, Q d := by
  simp only [decls, List.forall_mem_append] at each
  rw [space_eq]
  simp only [decls, List.forall_mem_append]
  exact ⟨⟨Decl.forall_mem_spaceImports each.1.1 _, Decl.forall_mem_reindentAll ending each.1.2 _⟩,
    Decl.forall_mem_spaceMembers each.2 _ _⟩

namespace Block

theorem TextsAll.arrange (h : b.TextsAll P) (roots : List String) :
    (b.arrange roots).TextsAll P := by
  obtain ⟨opening, decls, closing, close⟩ := textsAll_iff.mp h
  refine textsAll_iff.mpr ⟨?_, fun d mem => ?_, ?_, ?_⟩
  · rw [arrange_eq]
    exact opening.stripUnless _
  · obtain ⟨old, found, rfl⟩ := List.mem_map.mp ((arrange_decls roots b).mem_iff.mp mem)
    exact ⟨(decls old found).own.stripUnless _, (decls old found).body⟩
  · rw [arrange_eq]
    exact closing.stripUnless _
  · rw [arrange_eq]
    exact close

theorem TextsAll.space (h : b.TextsAll P) (lineEnd : P ending.toList) :
    (b.space ending).TextsAll P := by
  obtain ⟨opening, decls, closing, close⟩ := textsAll_iff.mp h
  refine textsAll_iff.mpr ⟨?_, forall_mem_space fun d mem => (decls d mem).respace lineEnd, ?_,
    close⟩
  · rw [space_eq]
    simp only [spaceOpening_eq]
    exact opening.endWhen lineEnd _
  · rw [space_eq]
    simp only
    split
    · exact closing.stripLeading
    · exact closing

theorem TextsAll.mapBlocks {f : Block Decl → Block Decl}
    (keeps : ∀ b : Block Decl, b.TextsAll P → (f b).TextsAll P) (h : b.TextsAll P) :
    (b.mapBlocks f).TextsAll P := by
  induction h with
  | @intro b own bodies ih =>
    obtain ⟨opening, decls, closing, close⟩ := own
    have kept : ∀ d ∈ b.decls, (d.mapBlocks f).TextsAll P := by
      intro d mem
      obtain ⟨leading, text, trailing, indent⟩ := decls d mem
      rw [Decl.mapBlocks_eq]
      refine ⟨⟨leading, text, trailing, indent⟩, fun a body => ?_⟩
      obtain ⟨inner, found, rfl⟩ := Option.map_eq_some_iff.mp body
      exact ih d mem inner found
    have old : ∀ d ∈ b.decls, d.TextsAll P := fun d mem => ⟨decls d mem, bodies d mem⟩
    simp only [Block.decls, List.forall_mem_append] at kept old
    rw [mapBlocks_eq]
    refine keeps _ (textsAll_iff.mpr ⟨opening, ?_, closing, close⟩)
    simp only [Block.decls, List.forall_mem_append, List.forall_mem_map]
    exact ⟨old.1, kept.2⟩

end Block

theorem SourceFile.Texts.tidy (h : f.Texts P) (roots : List String) (lineEnd : P ending.toList) :
    ((f.reorganize roots).normalize ending).Texts P := by
  refine ⟨?_, (h.root.mapBlocks fun b known => known.arrange roots).mapBlocks fun b known =>
    known.space lineEnd⟩
  exact h.header.stripUnless f.root.membersGuarded

theorem Piecewise.tidied (piecewise : Piecewise P) (h : f.Texts P) (roots : List String)
    (lineEnd : P ending.toList) : P (f.tidied roots ending) := by
  have whole := (h.tidy roots lineEnd).printed piecewise.toJoins
  have unmarked : P (unmark f.byteOrderMark
      ((f.reorganize roots).normalize ending).body.toList) := by
    unfold unmark withoutByteOrderMark
    split
    · exact whole
    · split
      · exact piecewise.nil
      · rename_i c rest text
        split
        · rename_i mark
          rw [text, ← List.singleton_append] at whole
          refine (piecewise.split (.of_inline ?_ _) whole).2
          rw [beq_iff_eq.mp mark]
          simp [isLineBreak, byteOrderMark]
        · rwa [← text]
  have trimmed : ∀ s, P s → P (Text.trimStart s) := by
    intro s known
    rw [← List.takeWhile_append_dropWhile (p := Text.isBlank) (l := s)] at known
    refine (piecewise.split (.of_head (fun c head => ?_) _) known).2
    by_contra breaks
    have solid := (Text.trimStart_eq_self_iff (Text.trimStart s)).mp
      (List.dropWhile_idempotent ..) c head
    rw [isBlank_of_isLineBreak (by simpa using breaks)] at solid
    cases solid
  have ended : ∀ s, P s → P (Text.trimEnd s) := by
    intro s known
    rw [← List.rdropWhile_append_rtakeWhile (p := Text.isBlank) (l := s)] at known
    refine (piecewise.split (fun last => ?_) known).1
    have nonempty : s.rdropWhile Text.isBlank ≠ [] := by
      intro none
      rw [none] at last
      cases last
    have solid := List.rdropWhile_last_not Text.isBlank s nonempty
    rw [List.getLast?_eq_getLast_of_ne_nil nonempty, Option.some.injEq] at last
    rw [last] at solid
    exact absurd (by decide) solid
  exact ended _ (trimmed _ unmarked)

end

end CSharpTidy
