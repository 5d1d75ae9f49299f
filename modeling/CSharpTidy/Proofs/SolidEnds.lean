import CSharpTidy.Proofs.LexedTree
import CSharpTidy.Proofs.LineLocality

/- Where the lines of a text end. No token and no comment ends with a line break, so that a line
   which is blank to its end was blank between them. -/
namespace CSharpTidy

def EndsSolid (s : List Char) : Prop :=
  ∃ front c back, s = front ++ c :: back ∧ isVoid c = false ∧ ∀ d ∈ back, isLineBreak d = false

variable {rest s : List Char} {file : SourceFile} {c : Char}

namespace EndsSolid

theorem of_head (solid : isVoid c = false) (inline : ∀ d ∈ s, isLineBreak d = false) :
    EndsSolid (c :: s) :=
  ⟨[], c, s, rfl, solid, inline⟩

theorem of_last (solid : isVoid c = false) (s : List Char) : EndsSolid (s ++ [c]) :=
  ⟨s, c, [], rfl, solid, by simp⟩

theorem prepend (h : EndsSolid s) (t : List Char) : EndsSolid (t ++ s) := by
  obtain ⟨front, c, back, rfl, solid, inline⟩ := h
  exact ⟨t ++ front, c, back, (List.append_assoc ..).symm, solid, inline⟩

theorem inline_of_void {blanks : List Char} (h : EndsSolid (s ++ blanks))
    (void : ∀ a ∈ blanks, isVoid a) : ∀ a ∈ blanks, isLineBreak a = false := by
  obtain ⟨front, c, back, whole, solid, inline⟩ := h
  obtain ⟨more, rfl, rest⟩ | ⟨more, rfl, rest⟩ := List.append_eq_append_iff.mp whole
  · rw [void c (by simp [rest])] at solid
    cases solid
  · cases more with
    | nil =>
      obtain rfl : c :: back = blanks := rest
      rw [void c (by simp)] at solid
      cases solid
    | cons a more =>
      obtain ⟨rfl, rfl⟩ := List.cons.inj rest
      exact fun d mem => inline d (List.mem_append_right _ mem)

end EndsSolid

namespace Literal

theorem afterCharacter_closes (h : afterCharacter s = some rest) :
    ∃ front, s = front ++ '\'' :: rest := by
  fun_induction afterCharacter s with
  | case1 => cases h
  | case2 c rest' ih =>
    obtain ⟨front, rfl⟩ := ih h
    exact ⟨'\\' :: c :: front, rfl⟩
  | case3 rest' =>
    cases h
    exact ⟨[], rfl⟩
  | case4 => cases h
  | case5 c rest' _ _ _ ih =>
    obtain ⟨front, rfl⟩ := ih h
    exact ⟨c :: front, rfl⟩

theorem afterBlockComment_closes (h : afterBlockComment s = some rest) :
    ∃ front, s = front ++ '*' :: '/' :: rest := by
  fun_induction afterBlockComment s with
  | case1 => cases h
  | case2 rest' =>
    cases h
    exact ⟨[], rfl⟩
  | case3 c rest' _ ih =>
    obtain ⟨front, rfl⟩ := ih h
    exact ⟨c :: front, rfl⟩

theorem afterRun_closes (c : Char) (s : List Char) :
    ∃ front, c :: s = front ++ c :: afterRun c (c :: s) := by
  induction s with
  | nil => exact ⟨[], by simp [afterRun]⟩
  | cons d s ih =>
    by_cases same : d = c
    · subst same
      obtain ⟨front, eq⟩ := ih
      refine ⟨d :: front, ?_⟩
      have run : afterRun d (d :: d :: s) = afterRun d (d :: s) := by simp [afterRun]
      rw [run, List.cons_append, ← eq]
    · exact ⟨[], by simp [afterRun, same]⟩

theorem Style.step_closes {style : Style} (h : style.step s = some (.close, rest)) :
    ∃ front, s = front ++ '"' :: rest := by
  cases style with
  | quoted verbatim interpolated =>
    refine ⟨[], ?_⟩
    unfold Style.step quotedStep at h
    grind
  | raw quotes dollars =>
    simp only [Style.step] at h
    unfold rawStep at h
    split at h
    · cases h
    · rename_i rest'
      simp only [Option.some.injEq, Prod.mk.injEq] at h
      rw [← h.2]
      exact afterRun_closes '"' rest'
    · split at h
      · cases h
      · split at h <;> cases h
    · cases h

/-- The outermost construct of a literal is a string. -/
def Grounded (stack : List Frame) : Prop :=
  ∃ style opened, stack.getLast? = some (.string style opened)

theorem scan_closes {stack : List Frame} (grounded : Grounded stack) (h : scan stack s = .ok rest) :
    ∃ front, s = front ++ '"' :: rest := by
  fun_induction scan stack s with
  | case1 =>
    obtain ⟨style, opened, last⟩ := grounded
    cases last
  | case2 => cases h
  | case3 s style opened outer step rest' stepped ih =>
    obtain ⟨passed, rfl⟩ := Style.step_suffix stepped
    by_cases closed : step = .close ∧ outer = []
    · obtain ⟨rfl, rfl⟩ := closed
      simp only [StringStep.frames, scan, Except.ok.injEq] at h
      rw [← h]
      exact Style.step_closes stepped
    · have inner : Grounded (step.frames style opened outer) := by
        obtain ⟨style', opened', last⟩ := grounded
        cases outer with
        | nil | cons frame outer => cases step <;> simp_all [Grounded, StringStep.frames]
      obtain ⟨front, eq⟩ := ih inner h
      exact ⟨passed ++ front, by rw [eq, List.append_assoc]⟩
  | case4 => cases h
  | case5 s braces opened outer step rest' stepped ih =>
    obtain ⟨passed, rfl⟩ := holeStep_suffix stepped
    have inner : Grounded (step.frames (passed ++ rest') braces opened outer) := by
      obtain ⟨style, opened', last⟩ := grounded
      cases outer with
      | nil => cases last
      | cons frame outer =>
        cases step with
        | closeBrace => cases braces <;> simp_all [Grounded, HoleStep.frames]
        | _ => simp_all [Grounded, HoleStep.frames]
    obtain ⟨front, eq⟩ := ih inner h
    exact ⟨passed ++ front, by rw [eq, List.append_assoc]⟩

theorem after_closes (h : after s = .ok (some rest)) :
    ∃ front quote, (quote = '\'' ∨ quote = '"') ∧ s = front ++ quote :: rest := by
  unfold after at h
  split at h
  · cases h
  · rename_i started
    split at h
    · cases h
    · rename_i ended
      cases h
      obtain ⟨passed, rfl⟩ := opening_suffix started
      obtain ⟨front, rfl⟩ := afterCharacter_closes ended
      exact ⟨passed ++ front, '\'', .inl rfl, (List.append_assoc ..).symm⟩
  · rename_i started
    split at h
    · cases h
    · rename_i scanned
      cases h
      obtain ⟨passed, rfl⟩ := opening_suffix started
      obtain ⟨front, rfl⟩ := scan_closes ⟨_, _, rfl⟩ scanned
      exact ⟨passed ++ front, '"', .inr rfl, (List.append_assoc ..).symm⟩

end Literal

namespace Piece

theorem textBefore_blockComment {rest' : List Char}
    (ended : Literal.afterBlockComment rest = some rest') :
    ∃ front, textBefore ('/' :: '*' :: rest) rest' = '/' :: '*' :: (front ++ ['*', '/']) := by
  obtain ⟨front, rfl⟩ := Literal.afterBlockComment_closes ended
  refine ⟨front, ?_⟩
  have split : '/' :: '*' :: (front ++ '*' :: '/' :: rest') =
      '/' :: '*' :: (front ++ ['*', '/']) ++ rest' := by simp
  rw [split, textBefore_append_self]

theorem comment?_endsSolid {p : Piece TriviaKind} (h : comment? s = .ok (some p)) :
    EndsSolid p.text := by
  unfold comment? at h
  split at h
  · cases h
    refine .of_head (by decide) ?_
    simp only [List.forall_mem_cons]
    exact ⟨by decide, fun d mem => by simpa using List.mem_takeWhile_imp mem⟩
  · rename_i rest
    split at h
    · cases h
    · rename_i rest' ended
      cases h
      obtain ⟨front, text⟩ := textBefore_blockComment ended
      have last : '/' :: '*' :: (front ++ ['*', '/']) = '/' :: '*' :: (front ++ ['*']) ++ ['/'] := by
        simp
      rw [text, last]
      exact .of_last (by decide) _
  · cases h

theorem splitNumber_inline (hex : Bool) (previous : Char) (s : List Char) :
    ∀ d ∈ (splitNumber hex previous s).1, isLineBreak d = false := by
  induction s generalizing previous with
  | nil => simp [splitNumber]
  | cons c s ih =>
    unfold splitNumber
    split
    · rename_i continues
      refine List.forall_mem_cons.mpr ⟨?_, ih c⟩
      by_contra breaks
      simp only [isLineBreak, Bool.not_eq_false, Bool.or_eq_true, beq_iff_eq] at breaks
      rcases breaks with rfl | rfl <;> simp [numberContinues, Char.isAlphanum] at continues
    · simp

theorem punct_inline {s : List Char} :
    ∀ d ∈ (s.take (punctLength s)).tail, isLineBreak d = false := by
  have inline : operators.all fun op => op.toList.all fun d => !isLineBreak d := by decide
  simp only [List.all_eq_true, Bool.not_eq_true'] at inline
  unfold punctLength
  split
  · rename_i op found
    have front : op.toList.isPrefixOf s := by simpa using List.find?_some found
    obtain ⟨rest, rfl⟩ := List.isPrefixOf_iff_prefix.mp front
    rw [← String.length_toList, List.take_left]
    exact fun d mem => inline op (List.mem_of_find?_eq_some found) d (List.mem_of_mem_tail mem)
  · cases s <;> simp

theorem plain_inline (rest : List Char) :
    ∃ more, (plain c rest).text = c :: more ∧ ∀ d ∈ more, isLineBreak d = false := by
  unfold plain
  split
  · refine ⟨_, rfl, fun d mem => ?_⟩
    by_contra breaks
    have part := List.mem_takeWhile_imp mem
    rw [(Mark.of_isLineBreak (by simpa using breaks)).word] at part
    cases part
  · split
    · exact ⟨_, rfl, splitNumber_inline _ _ _⟩
    · obtain ⟨n, length⟩ := Nat.exists_eq_succ_of_ne_zero (punctLength_pos (c :: rest)).ne'
      have inline := @punct_inline (c :: rest)
      simp only [length, Nat.succ_eq_add_one, List.take_succ_cons, List.tail_cons] at inline ⊢
      exact ⟨_, rfl, inline⟩

theorem textBefore_literal (ended : Literal.after s = .ok (some rest)) :
    ∃ front quote, (quote = '\'' ∨ quote = '"') ∧ textBefore s rest = front ++ [quote] := by
  obtain ⟨front, quote, closes, eq⟩ := Literal.after_closes ended
  refine ⟨front, quote, closes, ?_⟩
  rw [eq, ← List.singleton_append, ← List.append_assoc, textBefore_append_self]

theorem lexeme_endsSolid {p : Piece LexemeKind} (h : lexeme c rest = .ok p)
    (solid : isVoid c = false) : EndsSolid p.text := by
  unfold lexeme at h
  split at h
  · cases h
  · rename_i rest' ended
    cases h
    obtain ⟨front, quote, closes, text⟩ := textBefore_literal ended
    rw [text]
    exact .of_last (by rcases closes with rfl | rfl <;> decide) front
  · cases h
    obtain ⟨more, text, inline⟩ := plain_inline rest
    rw [text]
    exact .of_head solid inline

end Piece

def Trivia.Firm (t : Trivia) : Prop :=
  t.isBlank = false → t.kind ≠ .disabled → EndsSolid t.text.toList

/-- Trivia behind a token: blanks and comments, and only the last piece can end the line. -/
structure Span.Trails (span : Span) : Prop where
  lexed : span.LexedTrailing
  firm : ∀ t ∈ span, t.isBlank = false → EndsSolid t.text.toList

structure Token.Firm (t : Token) : Prop where
  leading : ∀ u ∈ t.leading, u.Firm
  text : EndsSolid t.text.toList
  trailing : t.trailing.Trails

namespace Cursor

variable {c c' : Cursor} {span : Span}

theorem inlinePiece_firm {t : Trivia} (h : c.inlinePiece = .ok (some (t, c'))) :
    t.isBlank = false → EndsSolid t.text.toList := by
  unfold inlinePiece at h
  split at h
  · cases h
  · split at h
    · cases h
      simp [Trivia.isBlank, Trivia.isWhitespace]
    · split at h
      · cases h
      · cases h
      · rename_i found
        cases h
        intro _
        rw [String.toList_ofList]
        exact Piece.comment?_endsSolid found

theorem terminator_blank (c : Cursor) : ∀ t ∈ c.terminator.1, t.isBlank := by
  intro t mem
  simp [Trivia.isBlank, (c.terminator_lexed t mem).1]

theorem Directed.firm {line : List Char} (h : Directed c line rest span c')
    (solid : EndsSolid line) :
    ∀ t ∈ span, t.Firm := by
  have first : (Trivia.directiveLine line).Firm := by
    intro _ _
    rwa [Trivia.directiveLine, String.toList_ofList]
  cases h with
  | live => simpa using first
  | dead applied inactive =>
    refine List.forall_mem_cons.mpr ⟨first, ?_⟩
    simp only [deadBranch, List.forall_mem_append]
    refine ⟨fun t mem content => ?_, ?_⟩
    · rw [terminator_blank _ t mem] at content
      cases content
    · split
      · simp
      · simp [Trivia.Firm]

theorem leadingPiece_firm (h : c.leadingPiece = .ok (some (span, c'))) : ∀ t ∈ span, t.Firm := by
  unfold leadingPiece at h
  split at h
  · cases h
  · rename_i a rest ahead
    split at h
    · have blank := c.terminator_blank
      rw [Option.some.inj (Except.ok.inj h)] at blank
      intro t mem content
      rw [blank t mem] at content
      cases content
    · split at h
      · rename_i hash
        split at h
        · cases h
        · rename_i r found
          cases h
          simp only [Bool.and_eq_true, beq_iff_eq] at hash
          refine (directive_eq_ok_iff.mp found).firm ?_
          rw [ahead, hash.1, List.takeWhile_cons_of_pos (by decide)]
          exact .of_head (by decide) fun d mem => by simpa using List.mem_takeWhile_imp mem
      · split at h
        · cases h
        · cases h
        · rename_i found
          cases h
          simp only [List.mem_singleton, forall_eq]
          exact fun content _ => inlinePiece_firm found content

theorem leading_firm (h : c.leading = .ok (span, c')) : ∀ t ∈ span, t.Firm := by
  fun_induction leading c generalizing span c' with
  | case1 => cases h
  | case2 =>
    cases h
    simp
  | case3 => cases h
  | case4 c s c₁ piece more c₂ found ih =>
    cases h
    exact List.forall_mem_append.mpr ⟨leadingPiece_firm piece, ih found⟩

theorem trailing_trails (h : c.trailing = .ok (span, c')) : span.Trails := by
  refine ⟨trailing_lexed h, ?_⟩
  fun_induction trailing c generalizing span c' with
  | case1 => cases h
  | case2 c _ =>
    obtain rfl : c.terminator.1 = span := by rw [Except.ok.inj h]
    intro t mem content
    rw [terminator_blank c t mem] at content
    cases content
  | case3 => cases h
  | case4 c t c₁ piece more c₂ found ih =>
    cases h
    exact List.forall_mem_cons.mpr ⟨inlinePiece_firm piece, ih found⟩

theorem lexeme_endsSolid {a : Char} {l : Lexeme} (h : c.lexeme a rest = .ok (l, c'))
    (solid : isVoid a = false) : EndsSolid l.text.toList := by
  unfold lexeme at h
  split at h
  · cases h
  · rename_i found
    cases h
    rw [String.toList_ofList]
    exact Piece.lexeme_endsSolid found solid

theorem tokens_firm {s : TokenStream} (h : c.tokens = .ok s) : ∀ t ∈ s.tokens, t.Firm :=
  tokens_forall h fun lead ahead found trail =>
    ⟨leading_firm lead, lexeme_endsSolid found (leading_stops lead ahead), trailing_trails trail⟩

end Cursor

namespace PlacedToken

variable {ts : List PlacedToken}

theorem join_endsSolid (nonempty : ts ≠ []) (h : ∀ t ∈ ts, EndsSolid t.text.toList) :
    EndsSolid (join ts).toList := by
  induction ts with
  | nil => exact absurd rfl nonempty
  | cons t rest ih =>
    rw [List.forall_mem_cons] at h
    cases rest with
    | nil => exact h.1
    | cons next rest =>
      rw [join, String.toList_append]
      exact (ih (by simp) h.2).prepend _

theorem Chained.inline {tail : Span} (h : Chained tail ts)
    (first : ∀ t, ts.head? = some t → t.lineIndent ≠ none → t.leading = []) :
    ∀ t ∈ ts, t.lineIndent ≠ none → t.leading = [] := by
  induction ts with
  | nil => simp
  | cons t rest ih =>
    obtain ⟨joint, indented, more⟩ := h
    refine List.forall_mem_cons.mpr ⟨first t rfl, ih more fun q head indent => ?_⟩
    have empty := joint.inline (indented q head indent)
    cases rest with
    | nil => cases head
    | cons q' rest =>
      cases head
      exact empty

theorem place_inline {stream : TokenStream} (lexed : stream.Lexed) :
    ∀ t ∈ place stream.tokens, t.lineIndent ≠ none → t.leading = [] :=
  (chained_placeFrom lexed.chained true "").inline fun t head indent =>
    absurd (place_head_indent _ t head) indent

end PlacedToken

open PlacedToken

structure Decl.Firm (d : Decl) : Prop where
  text : EndsSolid d.text.toList
  trailing : d.trailing.Trails

/-- A block as the lexer and the outline make it. -/
structure Block.Firm (b : Block Decl) : Prop where
  lexed : b.Lexed
  opening : b.openTrailing.Trails
  decls : ∀ d ∈ b.decls, d.Firm
  close : b.braced → EndsSolid b.close.toList
  nested : b.Nested
  inline : ∀ d ∈ b.decls, d.lineIndent ≠ none → d.leading = []
  opens : ∀ d ∈ b.members, ∀ a, d.block = some a → a.braced = false →
    ∃ kind, d.kind = .container kind

inductive Block.FirmAll : Block Decl → Prop
  | intro {b : Block Decl} (own : b.Firm)
      (bodies : ∀ d ∈ b.members, ∀ a, d.block = some a → FirmAll a) : FirmAll b

theorem Span.trails_nil : Span.Trails [] :=
  ⟨⟨by simp, by simp⟩, by simp⟩

section
variable {whole : List PlacedToken} (tokens : ∀ t ∈ whole, t.toToken.Firm)
include tokens

variable {d : Decl}

theorem Decl.CutFrom.firm (h : d.CutFrom whole) : d.Firm ∧ ∀ b, d.block = some b →
      b.openTrailing.Trails ∧ (b.braced → EndsSolid b.close.toList) := by
  obtain ⟨text, close⟩ := h.texts (Q := fun text => EndsSolid text.toList)
    fun own nonempty inside =>
      join_endsSolid nonempty fun t mem => (tokens t (inside.subset mem)).text
  obtain ⟨trailing, opening⟩ := h.trails Span.trails_nil fun t mem => (tokens t mem).trailing
  exact ⟨⟨text, trailing⟩, fun b body => ⟨opening b body, close b body⟩⟩

omit tokens in
theorem Decl.CutFrom.inline (spaced : ∀ t ∈ whole, t.lineIndent ≠ none → t.leading = [])
    (h : d.CutFrom whole) (indented : d.lineIndent ≠ none) : d.leading = [] := by
  obtain ⟨own, n, nonempty, inside, leading, -, -, -, indent⟩ := h.own
  obtain ⟨t, more, rfl⟩ := List.exists_cons_of_ne_nil nonempty
  rw [indent] at indented
  have empty : leadingOf (t :: more) = [] := spaced t (inside.subset (by simp)) indented
  rw [leading, empty, List.drop_nil]

theorem Block.CutFrom.firmAll {b : Block Decl} (h : b.CutFrom whole)
    (inline : ∀ t ∈ whole, t.lineIndent ≠ none → t.leading = []) (lexed : b.LexedAll)
    (opening : b.openTrailing.Trails) (close : b.braced → EndsSolid b.close.toList) :
    b.FirmAll := by
  induction h with
  | @intro b decls plain nested bodies ih =>
    obtain ⟨own, lexedBodies⟩ := lexed
    have opens : ∀ d ∈ b.members, ∀ a, d.block = some a → a.braced = false →
        ∃ kind, d.kind = .container kind := fun d mem a body unbraced =>
      ((decls d (List.mem_append_right _ mem)).unclosed a body unbraced).2.2.2
    refine .intro ⟨own, opening, fun d mem => ((decls d mem).firm tokens).1, close, nested,
      fun d mem => (decls d mem).inline inline, opens⟩ ?_
    intro d mem a body
    obtain ⟨inner, closing⟩ := ((decls d (List.mem_append_right _ mem)).firm tokens).2 a body
    exact ih d mem a body (lexedBodies d mem a body) inner closing

end

structure SourceFile.Firm (f : SourceFile) : Prop where
  header : ∀ t ∈ f.header, t.Lexed ∧ t.Firm
  root : f.root.FirmAll
  openTrailing : f.root.openTrailing = []
  braced : f.root.braced = false

theorem SourceFile.ofTokens_firm {stream : TokenStream} (tokens : ∀ t ∈ stream.tokens, t.Firm)
    (streamLexed : stream.Lexed) (lexed : file.Lexed) (h : ofTokens stream = .ok file) :
    file.Firm := by
  obtain ⟨header, root⟩ := ofTokens_cutFrom h
  obtain ⟨openTrailing, braced, -⟩ := ofTokens_frame h
  have placed : ∀ t ∈ place stream.tokens, t.toToken.Firm := fun t mem =>
    tokens _ (mem_of_mem_place mem)
  refine ⟨fun t mem => ⟨lexed.header t mem, ?_⟩,
    root.firmAll placed (place_inline streamLexed) lexed.root ?_ ?_, openTrailing, braced⟩
  · obtain ⟨token, found, inside⟩ := header t mem
    exact (placed token found).leading t inside
  · rw [openTrailing]
    exact Span.trails_nil
  · simp [braced]

theorem SourceFile.parse_firm {source : List Char} {symbols : List String}
    (h : parse source symbols = .ok file) : file.Firm := by
  have lexed := parse_lexed h
  obtain ⟨stream, inner, tokenized, built, rfl⟩ := parse_stream h
  have innerLexed : inner.Lexed := ⟨lexed.header, lexed.root⟩
  obtain ⟨header, root, openTrailing, braced⟩ := ofTokens_firm
    (Cursor.tokens_firm tokenized) (tokenize_lexed tokenized) innerLexed built
  exact ⟨header, root, openTrailing, braced⟩

end CSharpTidy
