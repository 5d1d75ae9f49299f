import CSharpTidy.Proofs.ConditionalRun
import CSharpTidy.Proofs.Trace

/- The tokens of a text are traced by a reader. The lexer's cursor and the reader agree on
   conditional compilation and on whether a line starts; in dead code the cursor only ever stands
   in front of a directive that ends a branch. -/
namespace CSharpTidy

variable {c : Cursor} {r r' : Reader} {s text s' : List Char} {symbols : List String}
  {as : List Atom}

namespace Place

theorem next_eq_inside_iff {c : Char} (h : isSpace c) (p : Place) :
    p.next c = .inside ↔ p = .inside := by
  have unbroken : isLineBreak c = false := by
    by_contra breaks
    rw [isSpace_eq_false_of_isLineBreak (by simpa using breaks)] at h
    cases h
  cases p with
  | start => by_cases blank : Text.isBlank c <;> simp [next, unbroken, blank, h]
  | masked => simp [next, unbroken, h]
  | inside => simp [next, unbroken]

theorem after_eq_inside_iff (h : ∀ c ∈ s, isSpace c) (p : Place) :
    p.after s = .inside ↔ p = .inside := by
  induction s generalizing p with
  | nil => rfl
  | cons c s ih =>
    rw [List.forall_mem_cons] at h
    rw [after_cons, ih h.2, next_eq_inside_iff h.1]

end Place

theorem DirectiveLine.hash_of_isConditional {line : List Char}
    (h : (DirectiveLine.kind line).isConditional) : ∃ rest, line = '#' :: rest := by
  unfold DirectiveLine.kind DirectiveLine.kind? DirectiveLine.keyword? DirectiveLine.split at h
  split at h
  · exact ⟨_, rfl⟩
  · cases h

namespace Piece

theorem atConditional_front (h : atConditional s) :
    ∃ blanks rest, s = blanks ++ '#' :: rest ∧ (∀ c ∈ blanks, Text.isBlank c ∧ isSpace c) ∧
      Reader.switches ('#' :: rest) := by
  rw [atConditional_eq, Text.trimStart] at h
  obtain ⟨content, found⟩ := DirectiveLine.hash_of_isConditional h
  have unbroken := Literal.line_unbroken s
  have ends : ∀ b, (Literal.afterLine s).head? = some b → isLineBreak b := by
    intro b head
    obtain ⟨rest, ahead⟩ := List.head?_eq_some_iff.mp head
    exact Literal.afterLine_head ahead
  have whole := Literal.line_append_afterLine s
  generalize s.takeWhile (fun c => !isLineBreak c) = line at *
  rw [← List.takeWhile_append_dropWhile (p := Text.isBlank) (l := line), found,
    List.append_assoc] at whole
  rw [← List.takeWhile_append_dropWhile (p := Text.isBlank) (l := line), List.forall_mem_append,
    found] at unbroken
  refine ⟨line.takeWhile Text.isBlank, content ++ Literal.afterLine s, whole.symm, ?_, ?_⟩
  · intro c mem
    have blank : Text.isBlank c := List.mem_takeWhile_imp mem
    exact ⟨blank, by simp [isSpace, blank, unbroken.1 c mem]⟩
  · rw [Reader.switches, ← List.cons_append, (Literal.takeWhile_line unbroken.2 ends).1, ← found]
    exact h

theorem atConditional_of_switches (h : Reader.switches ('#' :: s)) : atConditional ('#' :: s) := by
  have hash : isLineBreak '#' = false := by decide
  have solid : Text.isBlank '#' = false := by decide
  rw [atConditional_eq, Text.trimStart, List.takeWhile_cons_of_pos (by simp [hash]),
    List.dropWhile_cons_of_neg (by simp [solid]),
    ← List.takeWhile_cons_of_pos (p := fun c => !isLineBreak c) (by simp [hash])]
  exact h

end Piece

/-- The cursor and the reader stand at one place of a text. -/
structure Cursor.At (c : Cursor) (r : Reader) : Prop where
  conditional : r.conditional = c.conditional
  opened : c.opened.length = c.conditional.branches.length
  lineStart : c.rest ≠ [] → (c.lineStart ↔ r.place ≠ .inside)
  dead : c.conditional.isActive = false → c.rest ≠ [] →
    r.place = .start ∧ Piece.atConditional c.rest

namespace Cursor

theorem at_ofText (text : List Char) (symbols : List String) :
    (ofText text symbols).At ⟨.start, .ofSymbols symbols⟩ :=
  ⟨rfl, rfl, by simp [ofText], by simp [ofText, Conditional.ofSymbols, Conditional.isActive]⟩

variable {rest : List Char} {c' : Cursor} {span : Span} {b a : Char}

theorem terminator_lineStart (ahead : c.rest = b :: rest) (breaks : isLineBreak b) :
    c.terminator.2.lineStart = true := by
  simp [terminator, ahead, breaks]

theorem terminator_trace (ahead : c.rest = b :: rest) (breaks : isLineBreak b) (r : Reader) :
    Trace r (c.terminator.1.map .trivia) c.rest ⟨.start, r.conditional⟩ c.terminator.2.rest := by
  rcases c.terminator_cases with ⟨-, unbroken⟩ | ⟨terminator, line, rest⟩
  · rw [unbroken b (by simp [ahead])] at breaks
    cases breaks
  · rw [line, rest]
    refine .cons (.lineEnd rfl terminator) ?_ (.nil _ _)
    simp [Atom.text, Trivia.lineEnd, splitBreak_append]

theorem At.active (h : c.At r) (ahead : c.rest = a :: rest) (space : isSpace a = false)
    (hash : a ≠ '#') : c.conditional.isActive := by
  by_contra inactive
  obtain ⟨-, conditional⟩ := h.dead (by simpa using inactive) (by simp [ahead])
  obtain ⟨blanks, more, whole, spaces, -⟩ := Piece.atConditional_front conditional
  rw [ahead] at whole
  cases blanks with
  | nil => exact hash (List.cons.inj whole).1
  | cons b blanks =>
    rw [(List.cons.inj whole).1, (spaces b (by simp)).2] at space
    cases space

theorem At.active_of_break (h : c.At r) (ahead : c.rest = b :: rest) (breaks : isLineBreak b) :
    c.conditional.isActive := by
  refine h.active ahead (isSpace_eq_false_of_isLineBreak breaks) ?_
  rintro rfl
  exact absurd breaks (by decide)

theorem terminator_at (h : c.At r) (ahead : c.rest = b :: rest) (breaks : isLineBreak b) :
    c.terminator.2.At ⟨.start, r.conditional⟩ := by
  obtain ⟨conditional, opened⟩ := c.terminator_keeps
  refine ⟨h.conditional.trans conditional.symm, by rw [opened, conditional, h.opened],
    by simp [terminator_lineStart ahead breaks], fun inactive _ => ?_⟩
  rw [conditional, h.active_of_break ahead breaks] at inactive
  cases inactive

theorem inlinePiece_traced {t : Trivia} (h : c.At r) (found : c.inlinePiece = .ok (some (t, c'))) :
    ∃ r', Trace r [.trivia t] c.rest r' c'.rest ∧ c'.At r' := by
  have text := congrArg String.toList (inlinePiece_text found)
  simp only [Cursor.ahead, String.toList_append, String.toList_ofList] at text
  unfold inlinePiece at found
  split at found
  · cases found
  · rename_i a rest ahead
    have nonempty : c.rest ≠ [] := by simp [ahead]
    split at found
    · rename_i space
      cases found
      have spaces : ∀ b ∈ a :: rest.takeWhile isSpace, isSpace b :=
        List.forall_mem_cons.mpr ⟨space, fun b => List.mem_takeWhile_imp⟩
      refine ⟨_, .cons (.space rfl (by simp) (by simpa using spaces)) text.symm (.nil _ _),
        h.conditional, h.opened, fun _ => ?_, fun inactive _ => ?_⟩
      · rw [String.toList_ofList, ne_eq, Place.after_eq_inside_iff spaces]
        exact h.lineStart nonempty
      · obtain ⟨start, conditional⟩ := h.dead inactive nonempty
        obtain ⟨blanks, more, whole, blank, switches⟩ := Piece.atConditional_front conditional
        have hash : isSpace '#' = false := by decide
        have blanksSpace : ∀ b ∈ blanks, isSpace b := fun b mem => (blank b mem).2
        have front : a :: rest.takeWhile isSpace = blanks := by
          rw [← List.takeWhile_cons_of_pos space, ← ahead, whole,
            List.takeWhile_append_of_pos blanksSpace, List.takeWhile_cons_of_neg (by simp [hash]),
            List.append_nil]
        have behind : rest.dropWhile isSpace = '#' :: more := by
          rw [← List.dropWhile_cons_of_pos space, ← ahead, whole,
            List.dropWhile_append_of_pos blanksSpace, List.dropWhile_cons_of_neg (by simp [hash])]
        rw [String.toList_ofList, front, start]
        exact ⟨Place.after_blank fun b mem => (blank b mem).1,
          behind ▸ Piece.atConditional_of_switches switches⟩
    · rename_i notSpace
      split at found
      · cases found
      · cases found
      · rename_i p comment
        cases found
        have active : c.conditional.isActive := by
          obtain ⟨more, slash⟩ := Piece.comment?_front comment
          refine h.active ahead (by simpa using notSpace) ?_
          rw [(List.cons.inj slash).1]
          decide
        have append := Piece.comment?_append comment
        refine ⟨_, .cons (.comment (h.conditional ▸ active) ?_) text.symm (.nil _ _),
          h.conditional, h.opened, fun _ => by simp, fun inactive => ?_⟩
        · simpa [append, move] using comment
        · rw [show c.conditional.isActive = false from inactive] at active
          cases active

theorem deadBranch_traced (conditional : r.conditional = c.conditional)
    (opened : c.opened.length = c.conditional.branches.length)
    (inactive : c.conditional.isActive = false)
    (ends : ∀ b, c.rest.head? = some b → isLineBreak b) :
    ∃ r', Trace r (c.deadBranch.1.map .trivia) c.rest r' c.deadBranch.2.rest ∧
      c.deadBranch.2.At r' := by
  cases ahead : c.rest with
  | nil =>
    have none : c.terminator = ([], c) := by simp [terminator, ahead]
    have dead : c.deadBranch = ([], { c.move [] [] with lineStart := true }) := by
      simp [deadBranch, none, ahead, Piece.afterDisabled, textBefore]
    rw [dead]
    exact ⟨r, .nil _ _, conditional, opened, by simp [move], by simp [move]⟩
  | cons b rest =>
    have breaks := ends b (by simp [ahead])
    have line := terminator_trace ahead breaks r
    obtain ⟨keptConditional, keptOpened⟩ := c.terminator_keeps
    rw [ahead] at line
    simp only [deadBranch, List.map_append]
    generalize c.terminator = lineEnd at *
    obtain ⟨span, passed⟩ := lineEnd
    simp only at line keptConditional keptOpened ⊢
    have whole := textBefore_append (Piece.afterDisabled_suffix passed.rest)
    have quiet := Piece.disabled_starts whole
    have stops := Piece.afterDisabled_cases passed.rest
    have same : passed.conditional = r.conditional := keptConditional.trans conditional.symm
    split
    · rename_i empty
      rw [List.isEmpty_iff.mp empty, List.nil_append] at whole
      rw [whole] at stops
      refine ⟨⟨.start, r.conditional⟩, by simpa [move, whole] using line, same.symm, ?_,
        by simp [move], ?_⟩
      · simp [move, keptOpened, keptConditional, opened]
      · intro _ ahead
        have ahead : passed.rest ≠ [] := by simpa [move, whole] using ahead
        exact ⟨rfl, by simpa [move, whole] using stops.resolve_left ahead⟩
    · rename_i nonempty
      refine ⟨_, line.append (.cons (.disabled rfl ?_ ?_ rfl ?_) ?_ (.nil _ _)), same.symm, ?_, ?_, ?_⟩
      · simpa using nonempty
      · rw [conditional]
        exact inactive
      · simp [move, whole]
      · simp [Atom.text, move, whole]
      · simp [move, keptOpened, keptConditional, opened]
      · intro ahead
        simp [quiet (by simpa [move] using ahead)]
      · intro _ ahead
        have ahead : Piece.afterDisabled passed.rest ≠ [] := by simpa [move] using ahead
        simp [quiet ahead, stops.resolve_left ahead, move]

theorem directive_traced (h : c.At r) (ahead : c.rest = '#' :: s) (starts : c.lineStart)
    (found : c.directive = .ok (span, c')) :
    ∃ r', Trace r (span.map .trivia) c.rest r' c'.rest ∧ c'.At r' := by
  have nonempty : c.rest ≠ [] := by simp [ahead]
  have unbroken := Literal.line_unbroken c.rest
  have whole := Literal.line_append_afterLine c.rest
  have ends : ∀ b, (Literal.afterLine c.rest).head? = some b → isLineBreak b := by
    intro b head
    obtain ⟨rest, behind⟩ := List.head?_eq_some_iff.mp head
    exact Literal.afterLine_head behind
  have hash : c.rest.takeWhile (fun a => !isLineBreak a) =
      '#' :: s.takeWhile (fun a => !isLineBreak a) := by
    rw [ahead, List.takeWhile_cons_of_pos (by decide)]
  have counts : r.conditional.isActive = false → r.place = .start ∧
      (DirectiveLine.kind (c.rest.takeWhile fun a => !isLineBreak a)).isConditional := by
    intro inactive
    obtain ⟨start, conditional⟩ := h.dead (h.conditional ▸ inactive) nonempty
    rw [Piece.atConditional_eq, Text.trimStart, hash, List.dropWhile_cons_of_neg (by decide),
      ← hash] at conditional
    exact ⟨start, conditional⟩
  have opens := (h.lineStart nonempty).mp starts
  simp only [directive] at found
  split at found
  · cases found
  · rename_i conditional applied
    have opened := openedAfter_length h.opened applied
    have line : Trace r [.trivia ⟨.directive (DirectiveLine.kind
        (c.rest.takeWhile fun a => !isLineBreak a)),
        String.ofList (c.rest.takeWhile fun a => !isLineBreak a)⟩] c.rest ⟨.inside, conditional⟩
        (Literal.afterLine c.rest) := by
      refine .cons (.directive (by simp) (by simpa using hash) (by simpa using unbroken) ends opens
        (by simpa using counts) (by simpa [h.conditional] using applied)) ?_ (.nil _ _)
      simpa [Atom.text] using whole.symm
    split at found
    · rename_i active
      cases found
      refine ⟨_, line, rfl, opened, by simp, fun inactive => ?_⟩
      rw [show conditional.isActive = false from inactive] at active
      cases active
    · rename_i inactive
      cases found
      obtain ⟨r', dead, at'⟩ := deadBranch_traced (c := { c.move
        (c.rest.takeWhile fun a => !isLineBreak a) (Literal.afterLine c.rest) with
        lineStart := false, conditional := conditional, opened := c.openedAfter _ })
        (r := ⟨.inside, conditional⟩) rfl opened (by simpa using inactive) ends
      exact ⟨r', line.append dead, at'⟩

theorem leadingPiece_traced (h : c.At r) (found : c.leadingPiece = .ok (some (span, c'))) :
    ∃ r', Trace r (span.map .trivia) c.rest r' c'.rest ∧ c'.At r' := by
  unfold leadingPiece at found
  split at found
  · cases found
  · rename_i a rest ahead
    split at found
    · rename_i breaks
      have line := terminator_trace ahead breaks r
      have behind := terminator_at h ahead breaks
      rw [Option.some.inj (Except.ok.inj found)] at line behind
      exact ⟨_, line, behind⟩
    · split at found
      · rename_i hash
        simp only [Bool.and_eq_true, beq_iff_eq] at hash
        split at found
        · cases found
        · rename_i directive
          cases found
          exact directive_traced h (hash.1 ▸ ahead) hash.2 directive
      · split at found
        · cases found
        · cases found
        · rename_i piece
          cases found
          exact inlinePiece_traced h piece

theorem leading_traced (h : c.At r) (found : c.leading = .ok (span, c')) :
    ∃ r', Trace r (span.map .trivia) c.rest r' c'.rest ∧ c'.At r' := by
  fun_induction leading c generalizing span c' r with
  | case1 => cases found
  | case2 =>
    cases found
    exact ⟨r, .nil _ _, h⟩
  | case3 => cases found
  | case4 c s c₁ piece more c₂ found' ih =>
    cases found
    obtain ⟨r₁, first, at₁⟩ := leadingPiece_traced h piece
    obtain ⟨r₂, later, at₂⟩ := ih at₁ found'
    rw [List.map_append]
    exact ⟨r₂, first.append later, at₂⟩

theorem trailing_traced (h : c.At r) (found : c.trailing = .ok (span, c')) :
    ∃ r', Trace r (span.map .trivia) c.rest r' c'.rest ∧ c'.At r' := by
  fun_induction trailing c generalizing span c' r with
  | case1 => cases found
  | case2 c piece =>
    have same := Except.ok.inj found
    by_cases ahead : ∃ b rest, c.rest = b :: rest ∧ isLineBreak b
    · obtain ⟨b, rest, ahead, breaks⟩ := ahead
      have line := terminator_trace ahead breaks r
      have behind := terminator_at h ahead breaks
      rw [same] at line behind
      exact ⟨_, line, behind⟩
    · rcases c.terminator_cases with ⟨none, -⟩ | ⟨breaks, line, rest⟩
      · rw [none] at same
        cases same
        exact ⟨r, .nil _ _, h⟩
      · exfalso
        cases front : c.rest with
        | nil => simp [terminator, front] at line
        | cons b rest =>
          refine ahead ⟨b, rest, front, ?_⟩
          by_contra unbroken
          simp [terminator, front, unbroken] at line
  | case3 => cases found
  | case4 c t c₁ piece more c₂ found' ih =>
    cases found
    obtain ⟨r₁, first, at₁⟩ := inlinePiece_traced h piece
    obtain ⟨r₂, later, at₂⟩ := ih at₁ found'
    exact ⟨r₂, first.append later, at₂⟩

theorem leading_stopped (h : c.leading = .ok (span, c')) : c'.leadingPiece = .ok none := by
  fun_induction leading c generalizing span c' with
  | case1 => cases h
  | case2 c stopped =>
    cases h
    exact stopped
  | case3 => cases h
  | case4 c s c₁ piece more c₂ found ih =>
    cases h
    exact ih found

theorem At.stopped (h : c.At r) (stopped : c.leadingPiece = .ok none) (ahead : c.rest = a :: rest) :
    c.conditional.isActive ∧ isVoid a = false ∧ (a = '#' → r.place = .inside) ∧
      Piece.comment? (a :: rest) = .ok none := by
  have nonempty : c.rest ≠ [] := by simp [ahead]
  have starts := h.lineStart nonempty
  unfold leadingPiece at stopped
  simp only [ahead] at stopped
  split at stopped
  · cases stopped
  · rename_i unbroken
    split at stopped
    · split at stopped <;> cases stopped
    · rename_i noHash
      have hash : a = '#' → r.place = .inside := by
        rintro rfl
        by_contra outside
        exact noHash (by simp [starts.mpr outside])
      have piece : c.inlinePiece = .ok none := by
        split at stopped <;> first | assumption | cases stopped
      unfold inlinePiece at piece
      simp only [ahead] at piece
      split at piece
      · cases piece
      · rename_i notSpace
        have comment : Piece.comment? (a :: rest) = .ok none := by
          split at piece <;> first | assumption | cases piece
        refine ⟨?_, by simp [isVoid, notSpace, unbroken], hash, comment⟩
        by_cases sharp : a = '#'
        · by_contra inactive
          have place := (h.dead (by simpa using inactive) nonempty).1
          rw [hash sharp] at place
          cases place
        · exact h.active ahead (by simpa using notSpace) sharp

theorem lexeme_traced {l : Lexeme} (h : c.At r) (stopped : c.leadingPiece = .ok none)
    (ahead : c.rest = a :: rest) (found : c.lexeme a rest = .ok (l, c')) :
    Trace r [.token l] c.rest ⟨.inside, r.conditional⟩ c'.rest ∧ c'.At ⟨.inside, r.conditional⟩ := by
  obtain ⟨active, solid, hash, comment⟩ := h.stopped stopped ahead
  have text := congrArg String.toList (lexeme_text found)
  simp only [Cursor.ahead, String.toList_append, String.toList_ofList] at text
  unfold lexeme at found
  split at found
  · cases found
  · rename_i p piece
    cases found
    refine ⟨.cons (.token (h.conditional ▸ active) text solid hash comment ?_) ?_ (.nil _ _),
      h.conditional, h.opened, by simp, fun inactive => ?_⟩
    · simpa [move] using piece
    · rw [ahead]
      exact text.symm
    · rw [show c.conditional.isActive = false from inactive] at active
      cases active

end Cursor

def Token.atoms (t : Token) : List Atom :=
  t.leading.map .trivia ++ .token t.toLexeme :: t.trailing.map .trivia

namespace TokenStream

def atoms (s : TokenStream) : List Atom :=
  s.tokens.flatMap Token.atoms ++ s.tail.map .trivia

def shown (s : TokenStream) : List Atom :=
  s.atoms.filter Atom.counts

end TokenStream

theorem Cursor.tokens_traced {s : TokenStream} (h : c.At r) (found : c.tokens = .ok s) :
    ∃ r', Trace r s.atoms c.rest r' [] ∧ r'.conditional.branches = [] := by
  fun_induction Cursor.tokens c generalizing s r with
  | case1 => cases found
  | case2 c leading c₁ lead ended none =>
    cases found
    obtain ⟨r₁, trace, at₁⟩ := leading_traced h lead
    rw [ended] at trace
    refine ⟨r₁, by simpa [TokenStream.atoms] using trace, ?_⟩
    have opened := at₁.opened
    rw [none] at opened
    rw [at₁.conditional]
    exact List.eq_nil_of_length_eq_zero opened.symm
  | case3 => cases found
  | case4 => cases found
  | case5 => cases found
  | case6 => cases found
  | case7 c leading c₁ lead a rest ahead₁ l c₂ lexeme trailing c₃ trail s' more ih =>
    cases found
    obtain ⟨r₁, front, at₁⟩ := leading_traced h lead
    obtain ⟨token, at₂⟩ := lexeme_traced at₁ (leading_stopped lead) ahead₁ lexeme
    obtain ⟨r₃, back, at₃⟩ := trailing_traced at₂ trail
    obtain ⟨r₄, later, closed⟩ := ih at₃ more
    refine ⟨r₄, ?_, closed⟩
    simpa [TokenStream.atoms, Token.atoms] using front.append (token.append (back.append later))

theorem tokenize_traced {s : TokenStream} (h : tokenize text symbols = .ok s) :
    ∃ r', Trace ⟨.start, .ofSymbols symbols⟩ s.atoms text r' [] ∧ r'.conditional.branches = [] :=
  Cursor.tokens_traced (Cursor.at_ofText text symbols) h

theorem Trace.steps (h : Trace r as s r' s') : Steps r s (as.filter Atom.counts) r' s' := by
  induction h with
  | nil => exact .refl _ _
  | @cons _ _ _ a as _ _ _ first whole _ ih =>
    rw [whole, ← List.singleton_append, List.filter_append]
    exact first.steps.trans ih

theorem Reads.of_tokenize {s : TokenStream} (h : tokenize text symbols = .ok s) :
    Reads ⟨.start, .ofSymbols symbols⟩ text s.shown := by
  obtain ⟨r', trace, closed⟩ := tokenize_traced h
  have read := trace.steps.reads (.done closed)
  rwa [List.append_nil] at read

def Unread (r : Reader) (s : List Char) : Prop :=
  ∀ as, ¬ Reads r s as

theorem Unread.of_trace (trace : Trace r as s r' s') (h : Unread r' s') : Unread r s := by
  intro bs read
  obtain ⟨rest, -, later⟩ := read.of_steps trace.steps
  exact h rest later

theorem Unread.of_step {c : Char} (h : r.step c s = none) : Unread r (c :: s) := by
  intro as read
  cases read with
  | cons first => rw [h] at first; cases first

namespace Cursor

variable {e : ParseError}

theorem directive_unread (h : c.At r) (ahead : c.rest = '#' :: s) (starts : c.lineStart)
    (failed : c.directive = .error e) : Unread r c.rest := by
  have nonempty : c.rest ≠ [] := by simp [ahead]
  simp only [directive] at failed
  split at failed
  · rename_i cause rejected
    rw [ahead] at rejected ⊢
    refine .of_step ?_
    rw [Reader.step_directive ((h.lineStart nonempty).mp starts) fun inactive => ?_]
    · simp only [Reader.directive, h.conditional, rejected]
    · obtain ⟨start, conditional⟩ := h.dead (h.conditional ▸ inactive) nonempty
      refine ⟨start, ?_⟩
      rwa [ahead, Piece.atConditional_eq, Text.trimStart,
        List.takeWhile_cons_of_pos (by decide), List.dropWhile_cons_of_neg (by decide),
        ← List.takeWhile_cons_of_pos (p := fun c => !isLineBreak c) (by decide)] at conditional
  · split at failed <;> cases failed

theorem inlinePiece_unread (h : c.At r) (failed : c.inlinePiece = .error e) : Unread r c.rest := by
  unfold inlinePiece at failed
  split at failed
  · cases failed
  · rename_i a rest ahead
    split at failed
    · cases failed
    · rename_i notSpace
      split at failed
      · rename_i u comment
        have slash : a = '/' := by
          unfold Piece.comment? at comment
          split at comment
          · cases comment
          · rename_i front
            exact (List.cons.inj front).1
          · cases comment
        have active := h.active ahead (by simpa using notSpace) (by rw [slash]; decide)
        rw [← h.conditional] at active
        have solid : isVoid '/' = false := by decide
        rw [slash] at comment
        rw [ahead, slash]
        refine .of_step ?_
        simp [Reader.step, Reader.live, active, solid, comment]
      · cases failed
      · cases failed

theorem leadingPiece_unread (h : c.At r) (failed : c.leadingPiece = .error e) :
    Unread r c.rest := by
  unfold leadingPiece at failed
  split at failed
  · cases failed
  · rename_i a rest ahead
    split at failed
    · cases failed
    · split at failed
      · rename_i hash
        simp only [Bool.and_eq_true, beq_iff_eq] at hash
        split at failed
        · rename_i directive
          exact directive_unread h (hash.1 ▸ ahead) hash.2 directive
        · cases failed
      · split at failed
        · rename_i piece
          exact inlinePiece_unread h piece
        · cases failed
        · cases failed

theorem leading_unread (h : c.At r) (failed : c.leading = .error e) : Unread r c.rest := by
  fun_induction leading c generalizing r e with
  | case1 c e' piece => exact leadingPiece_unread h piece
  | case2 => cases failed
  | case3 c s c₁ piece e' found ih =>
    obtain ⟨r₁, trace, at₁⟩ := leadingPiece_traced h piece
    exact .of_trace trace (ih at₁ found)
  | case4 => cases failed

theorem trailing_unread (h : c.At r) (failed : c.trailing = .error e) : Unread r c.rest := by
  fun_induction trailing c generalizing r e with
  | case1 c e' piece => exact inlinePiece_unread h piece
  | case2 => cases failed
  | case3 c s c₁ piece e' found ih =>
    obtain ⟨r₁, trace, at₁⟩ := inlinePiece_traced h piece
    exact .of_trace trace (ih at₁ found)
  | case4 => cases failed

theorem tokens_unread (h : c.At r) (failed : c.tokens = .error e) : Unread r c.rest := by
  fun_induction Cursor.tokens c generalizing r e with
  | case1 c e' lead => exact leading_unread h lead
  | case2 => cases failed
  | case3 c leading c₁ lead ended p more opened =>
    obtain ⟨r₁, trace, at₁⟩ := leading_traced h lead
    refine .of_trace trace fun as read => ?_
    rw [ended] at read
    cases read with
    | done closed =>
      have length := at₁.opened
      rw [opened, ← at₁.conditional, closed] at length
      cases length
  | case4 c leading c₁ lead a rest ahead₁ e' lexeme =>
    obtain ⟨r₁, trace, at₁⟩ := leading_traced h lead
    obtain ⟨active, solid, hash, comment⟩ := at₁.stopped (leading_stopped lead) ahead₁
    rw [← at₁.conditional] at active
    refine .of_trace trace ?_
    rw [ahead₁]
    refine .of_step ?_
    rw [Reader.step_lexeme active solid hash comment]
    unfold Cursor.lexeme at lexeme
    split at lexeme
    · rename_i piece
      rw [piece]
      rfl
    · cases lexeme
  | case5 c leading c₁ lead a rest ahead₁ l c₂ lexeme e' trail =>
    obtain ⟨r₁, front, at₁⟩ := leading_traced h lead
    obtain ⟨token, at₂⟩ := lexeme_traced at₁ (leading_stopped lead) ahead₁ lexeme
    exact .of_trace (front.append token) (trailing_unread at₂ trail)
  | case6 c leading c₁ lead a rest ahead₁ l c₂ lexeme trailing c₃ trail e' more ih =>
    obtain ⟨r₁, front, at₁⟩ := leading_traced h lead
    obtain ⟨token, at₂⟩ := lexeme_traced at₁ (leading_stopped lead) ahead₁ lexeme
    obtain ⟨r₃, back, at₃⟩ := trailing_traced at₂ trail
    exact .of_trace (front.append (token.append back)) (ih at₃ more)
  | case7 => cases failed

end Cursor

/-- A text has tokens exactly if it can be read, and then the lexemes and directives that are
found. -/
theorem tokenize_iff_reads : (∃ s, tokenize text symbols = .ok s ∧ s.shown = as) ↔
      Reads ⟨.start, .ofSymbols symbols⟩ text as := by
  constructor
  · rintro ⟨s, found, rfl⟩
    exact .of_tokenize found
  · intro read
    cases found : tokenize text symbols with
    | error e => exact absurd read (Cursor.tokens_unread (Cursor.at_ofText text symbols) found as)
    | ok s =>
      have own : Reads ⟨.start, .ofSymbols symbols⟩ text s.shown := .of_tokenize found
      exact ⟨s, rfl, own.unique read⟩

end CSharpTidy
