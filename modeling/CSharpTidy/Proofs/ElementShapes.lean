import CSharpTidy.Proofs.DirectiveMarker
import CSharpTidy.Proofs.LexerRun

/- The elements of a lexed text as they matter to one who reads it row by row: which of them can
   have line feeds inside, how they start and how they end. -/
namespace CSharpTidy

variable {rest : List Char} {es : List Element}

namespace Element

open Text FileDirective

/-- What an element is to a reader who looks for directives to the tool. -/
inductive Role where
  | space | lineEnd | comment | enclosed | dead | other
  deriving DecidableEq, Repr

def role : Element → Role
  | .trivia _ t =>
      match t.kind with
      | .whitespace => .space
      | .endOfLine => .lineEnd
      | .lineComment => .comment
      | .blockComment => .enclosed
      | .disabled => .dead
      | .docComment | .directive _ => .other
  | .lexeme l => if l.kind = .literal then .enclosed else .other

def join (es : List Element) : List Char :=
  es.flatMap text

/-- What the lexer says of the text of an element, with `rest` behind it. -/
inductive Shape (rest : List Char) (e : Element) : Prop
  | space (role : e.role = .space) (spaces : ∀ c ∈ e.text, isSpace c = true)
  | lineEnd (role : e.role = .lineEnd) (ends : IsTerminator (String.ofList e.text))
  | comment (role : e.role = .comment) (slash : e.text.head? = some '/') (single : '\n' ∉ e.text)
  | enclosed (role : e.role = .enclosed) (uncommented : Uncommented (e.text ++ rest))
      {front : List Char} {stop : Char} {back : List Char} (closed : e.text = front ++ stop :: back)
      (solid : isVoid stop = false) (stops : inMarker stop = false) (single : '\n' ∉ back)
  | other (role : e.role = .other) (nonempty : e.text ≠ [])
      (uncommented : Uncommented (e.text ++ rest)) (single : '\n' ∉ e.text)

def Shaped (rest : List Char) : List Element → Prop
  | [] => True
  | e :: es => e.Shape (join es ++ rest) ∧ Shaped rest es

theorem shaped_append {fs : List Element} (first : Shaped (join fs ++ rest) es)
    (second : Shaped rest fs) : Shaped rest (es ++ fs) := by
  induction es with
  | nil => exact second
  | cons e es ih =>
    refine ⟨?_, ih first.2⟩
    have := first.1
    simpa [join] using this

end Element

theorem Piece.plain_kind (c : Char) (rest : List Char) : (plain c rest).kind ≠ .literal := by
  unfold plain
  split
  · simp
  · split <;> simp

namespace Cursor

open Element Text FileDirective

theorem terminator_shaped (side : Side) (c : Cursor) (rest : List Char) :
    Shaped rest (Span.elements side c.terminator.1) := by
  rcases c.terminator_cases with ⟨nothing, -⟩ | ⟨terminator, line, -⟩
  · rw [nothing]
    exact trivial
  · rw [line]
    refine ⟨.lineEnd rfl ?_, trivial⟩
    simpa [Element.text, Trivia.lineEnd] using terminator

theorem lineCommentKind_cases (s : List Char) : Piece.lineCommentKind s = .lineComment ∨
    Piece.lineCommentKind s = .docComment ∧ ∃ more, s = '/' :: '/' :: '/' :: more := by
  unfold Piece.lineCommentKind
  split
  · exact .inl rfl
  · exact .inr ⟨rfl, _, rfl⟩
  · exact .inl rfl

theorem comment?_shape (side : Side) {s : List Char} {p : Piece TriviaKind}
    (h : Piece.comment? s = .ok (some p)) :
    (Element.trivia side ⟨p.kind, String.ofList p.text⟩).Shape p.rest := by
  unfold Piece.comment? at h
  split at h
  · rename_i rest
    cases h
    have flat : '\n' ∉ '/' :: '/' :: rest.takeWhile fun c => !isLineBreak c := by
      simp only [List.mem_cons, not_or]
      exact ⟨by decide, by decide, fun mem => absurd (List.mem_takeWhile_imp mem) (by decide)⟩
    generalize whole : '/' :: '/' :: rest.takeWhile (fun c => !isLineBreak c) = text at flat ⊢
    have text_eq : ∀ kind, (Element.trivia side ⟨kind, String.ofList text⟩).text = text := by
      simp [Element.text]
    rcases lineCommentKind_cases text with kind | ⟨kind, more, rfl⟩
    · refine .comment (by simp [role, kind]) ?_ (by rwa [text_eq])
      rw [text_eq, ← whole]
      rfl
    · refine .other (by simp [role, kind]) (by rw [text_eq]; exact List.cons_ne_nil _ _)
        ⟨⟨'/', _, by rw [text_eq]; rfl, by decide⟩, ?_⟩ (by rwa [text_eq])
      intro t eq
      rw [text_eq] at eq
      rw [← (List.cons.inj (List.cons.inj eq).2).2]
      rfl
  · rename_i rest
    split at h
    · cases h
    · rename_i rest' ended
      cases h
      obtain ⟨front, text⟩ := Piece.textBefore_blockComment ended
      have closed : (Element.trivia side ⟨.blockComment,
          String.ofList (textBefore ('/' :: '*' :: rest) rest')⟩).text =
            '/' :: '*' :: front ++ '*' :: ['/'] := by
        simpa [Element.text] using text
      refine .enclosed rfl ⟨⟨'/', _, by rw [closed]; rfl, by decide⟩, ?_⟩ closed (by decide)
        (by decide) (by decide)
      intro t eq
      rw [closed] at eq
      exact absurd (List.cons.inj (List.cons.inj eq).2).1 (by decide)
  · cases h

variable {c c' : Cursor} {span : Span} {side : Side} {a : Char}

theorem inlinePiece_shape {t : Trivia} (side : Side) (h : c.inlinePiece = .ok (some (t, c'))) :
    (Element.trivia side t).Shape c'.rest := by
  unfold inlinePiece at h
  split at h
  · cases h
  · rename_i a rest ahead
    split at h
    · rename_i space
      cases h
      refine .space rfl ?_
      simp only [Element.text, String.toList_ofList, List.forall_mem_cons]
      exact ⟨space, fun c mem => List.mem_takeWhile_imp mem⟩
    · split at h
      · cases h
      · cases h
      · rename_i p found
        cases h
        exact comment?_shape side found

theorem Directed.shaped {line : List Char} (h : Directed c line rest span c')
    (hash : line.head? = some '#') (flat : '\n' ∉ line)
    (live : ∀ e ∈ Span.elements .leading span, e.role ≠ .dead) :
    Shaped c'.rest (Span.elements .leading span) := by
  have first : ∀ behind, (Element.trivia .leading (.directiveLine line)).Shape behind := by
    intro behind
    obtain ⟨more, rfl⟩ := List.head?_eq_some_iff.mp hash
    refine .other rfl ?_ ⟨⟨'#', more ++ behind, ?_, by decide⟩, ?_⟩ ?_
    · simp [Element.text, Trivia.directiveLine]
    · simp [Element.text, Trivia.directiveLine]
    · intro t eq
      simp [Element.text, Trivia.directiveLine] at eq
    · simpa [Element.text, Trivia.directiveLine] using flat
  cases h with
  | live => exact ⟨first _, trivial⟩
  | dead applied inactive =>
    refine ⟨first _, ?_⟩
    simp only [deadBranch] at live ⊢
    split
    · rw [List.append_nil]
      exact terminator_shaped .leading _ _
    · -- what is left of a dead branch would be an element
      rename_i left
      rw [if_neg left, ← List.cons_append, Span.elements_append] at live
      exact absurd rfl (live _ (List.mem_append_right _ List.mem_cons_self))

theorem leadingPiece_shaped (h : c.leadingPiece = .ok (some (span, c')))
    (live : ∀ e ∈ Span.elements .leading span, e.role ≠ .dead) :
    Shaped c'.rest (Span.elements .leading span) := by
  unfold leadingPiece at h
  split at h
  · cases h
  · rename_i a rest ahead
    split at h
    · have found := Option.some.inj (Except.ok.inj h)
      have shaped := terminator_shaped .leading c c'.rest
      rwa [found] at shaped
    · split at h
      · rename_i hash
        split at h
        · cases h
        · rename_i r found
          cases h
          simp only [Bool.and_eq_true, beq_iff_eq] at hash
          refine (directive_eq_ok_iff.mp found).shaped ?_ ?_ live
          · rw [ahead, hash.1]
            rfl
          · exact fun mem => absurd (List.mem_takeWhile_imp mem) (by decide)
      · split at h
        · cases h
        · cases h
        · rename_i found
          cases h
          exact ⟨inlinePiece_shape .leading found, trivial⟩

theorem uncommented_of_stopped (stopped : c.leadingPiece = .ok none) (ahead : c.rest = a :: rest) :
    Uncommented (a :: rest) := by
  refine ⟨⟨a, rest, rfl, leading_stops (leading_of_stopped stopped) ahead⟩, ?_⟩
  intro t eq
  rw [eq] at ahead
  have unbroken : isLineBreak '/' = false := by decide
  have solid : isSpace '/' = false := by decide
  simp [leadingPiece, inlinePiece, ahead, Piece.comment?, unbroken, solid] at stopped

theorem lexeme_shape {l : Lexeme} (uncommented : Uncommented (a :: rest))
    (h : c.lexeme a rest = .ok (l, c')) : (Element.lexeme l).Shape c'.rest := by
  have solid : isVoid a = false := by
    obtain ⟨_, _, eq, solid⟩ := uncommented.solid
    rwa [(List.cons.inj eq).1]
  have whole : l.text.toList ++ c'.rest = a :: rest := by
    simpa [Cursor.ahead] using congrArg String.toList (lexeme_text h)
  unfold lexeme at h
  split at h
  · cases h
  · rename_i p found
    cases h
    have text_eq : (Element.lexeme ⟨p.kind, String.ofList p.text⟩).text = p.text := by
      simp [Element.text]
    rw [← whole] at uncommented
    unfold Piece.lexeme at found
    split at found
    · cases found
    · rename_i rest' ended
      cases found
      obtain ⟨front, quote, closes, closed⟩ := Piece.textBefore_literal ended
      have stops : isVoid quote = false ∧ inMarker quote = false := by
        rcases closes with rfl | rfl <;> decide
      exact .enclosed rfl uncommented (text_eq.trans closed) stops.1 stops.2 (by simp)
    · cases found
      obtain ⟨more, plain_eq, inline⟩ := Piece.plain_inline (c := a) rest
      refine .other (if_neg (Piece.plain_kind a rest)) ?_ uncommented ?_
      · rw [text_eq, plain_eq]
        exact List.cons_ne_nil _ _
      rw [text_eq, plain_eq, List.mem_cons, not_or]
      refine ⟨?_, fun mem => absurd (inline _ mem) (by decide)⟩
      rintro rfl
      exact absurd solid (by decide)

theorem Step.shaped {side' : Side} (h : Step side c es side' c') (live : ∀ e ∈ es, e.role ≠ .dead) :
    Shaped c'.rest es := by
  cases h with
  | piece h => exact leadingPiece_shaped h live
  | lexeme stopped ahead h => exact ⟨lexeme_shape (uncommented_of_stopped stopped ahead) h, trivial⟩
  | inline h => exact ⟨inlinePiece_shape .trailing h, trivial⟩
  | lineEnd stopped => exact terminator_shaped .trailing c _

theorem Run.shaped (h : Run side c es) (live : ∀ e ∈ es, e.role ≠ .dead) : Shaped [] es := by
  induction h with
  | done => exact trivial
  | step first more ih =>
    obtain ⟨here, later⟩ := List.forall_mem_append.mp live
    apply shaped_append _ (ih later)
    rw [List.append_nil, join, ← more.text]
    exact first.shaped here

end Cursor

end CSharpTidy
