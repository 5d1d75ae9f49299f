import CSharpTidy.Proofs.LiteralEnds

/- What a string literal is, as a grammar: regular, verbatim, raw and interpolated strings, and the
   holes of the last, which hold literals again. A literal of the grammar is one token, and what it
   contains is not read as anything else. -/
namespace CSharpTidy

variable {rest s text : List Char}

namespace Literal

/-- Between the quotes of a regular string: plain characters, and escapes of two characters. -/
inductive RegularText : List Char → Prop
  | nil : RegularText []
  | plain {c : Char} {s : List Char} (quote : c ≠ '"') (escape : c ≠ '\\')
      (inline : isLineBreak c = false) (more : RegularText s) : RegularText (c :: s)
  | escape {c : Char} {s : List Char} (inline : isLineBreak c = false) (more : RegularText s) :
      RegularText ('\\' :: c :: s)

def doubleQuotes (s : List Char) : List Char :=
  s.flatMap fun c => if c = '"' then ['"', '"'] else [c]

/-- Between the delimiters of a raw string. -/
structure RawText (quotes : Nat) (s : List Char) : Prop where
  nonempty : s ≠ []
  first : s.head? ≠ some '"'
  last : s.getLast? ≠ some '"'
  apart : ¬ List.replicate quotes '"' <:+: s

/-- What the grammar speaks of: a literal, the text between the quotes of an interpolated string,
and the text between the braces of a hole. -/
inductive Part where
  | literal
  | pieces
  | contents
  deriving DecidableEq, Repr

/-- The texts of the grammar. A hole holds plain characters, literals that no quote follows,
character literals and groups in braces. -/
inductive Written : Part → List Char → Prop
  | regular {s : List Char} (text : RegularText s) : Written .literal ('"' :: s ++ ['"'])
  | verbatim (s : List Char) : Written .literal ('@' :: '"' :: doubleQuotes s ++ ['"'])
  | raw {quotes : Nat} {s : List Char} (long : 3 ≤ quotes) (text : RawText quotes s) :
      Written .literal (List.replicate quotes '"' ++ s ++ List.replicate quotes '"')
  | interpolated {s : List Char} (text : Written .pieces s) :
      Written .literal ('$' :: '"' :: s ++ ['"'])
  | noPiece : Written .pieces []
  | plainPiece {c : Char} {s : List Char} (quote : c ≠ '"') (escape : c ≠ '\\') (brace : c ≠ '{')
      (inline : isLineBreak c = false) (more : Written .pieces s) : Written .pieces (c :: s)
  | escape {c : Char} {s : List Char} (inline : isLineBreak c = false) (more : Written .pieces s) :
      Written .pieces ('\\' :: c :: s)
  | brace {s : List Char} (more : Written .pieces s) : Written .pieces ('{' :: '{' :: s)
  | hole {h s : List Char} (contents : Written .contents h) (single : h.head? ≠ some '{')
      (more : Written .pieces s) : Written .pieces ('{' :: h ++ '}' :: s)
  | noContent : Written .contents []
  | plainContent {c : Char} {s : List Char} (plain : c ∉ ['"', '\'', '{', '}', '/', '$', '@'])
      (more : Written .contents s) : Written .contents (c :: s)
  | literal {l s : List Char} (text : Written .literal l) (apart : s.head? ≠ some '"')
      (more : Written .contents s) : Written .contents (l ++ s)
  | character {k s : List Char} (text : CharacterText k) (more : Written .contents s) :
      Written .contents ('\'' :: k ++ '\'' :: s)
  | group {g s : List Char} (inner : Written .contents g) (more : Written .contents s) :
      Written .contents ('{' :: g ++ '}' :: s)

theorem run_replicate {c : Char} {s : List Char} (apart : s.head? ≠ some c) (n : Nat) :
    runLength c (List.replicate n c ++ s) = n ∧ afterRun c (List.replicate n c ++ s) = s := by
  induction n with
  | zero =>
    cases s with
    | nil => exact ⟨rfl, rfl⟩
    | cons d s =>
      have other : d ≠ c := by simpa using apart
      simp [runLength, afterRun, other]
  | succ n ih =>
    obtain ⟨length, rest⟩ := ih
    simp only [runLength, afterRun] at length rest
    rw [List.replicate_succ, List.cons_append]
    simp only [runLength, afterRun, List.takeWhile_cons, List.dropWhile_cons, BEq.rfl, if_true,
      List.length_cons, length, rest, and_self]

theorem runLength_short (first : s.head? ≠ some '"') (apart : rest.head? ≠ some '"') :
    ¬ 3 ≤ runLength '"' ('"' :: (s ++ '"' :: rest)) := by
  cases s with
  | nil =>
    have two := (run_replicate apart 2).1
    have same : List.replicate 2 '"' ++ rest = '"' :: ([] ++ '"' :: rest) := rfl
    rw [same] at two
    omega
  | cons c s =>
    have one := (@run_replicate '"' (c :: s ++ '"' :: rest) first 1).1
    have same : List.replicate 1 '"' ++ (c :: s ++ '"' :: rest) = '"' :: (c :: s ++ '"' :: rest) :=
      rfl
    rw [same] at one
    omega

theorem RegularText.head_ne (h : RegularText s) : s.head? ≠ some '"' := by
  cases h with
  | nil => simp
  | plain quote => simpa using quote
  | escape => simp

theorem Written.head_ne (h : Written .pieces s) : s.head? ≠ some '"' := by
  cases h with
  | noPiece => simp
  | plainPiece quote => simpa using quote
  | escape => simp
  | brace => simp
  | hole => simp

variable {quotes : Nat}

section Steps

variable {c : Char} {s opened : List Char} {interpolated : Bool}

theorem step_plain (quote : c ≠ '"') (escape : c ≠ '\\') (brace : interpolated = true → c ≠ '{')
    (inline : isLineBreak c = false) :
    (Style.quoted false interpolated).step (c :: s) = some (.text, s) := by
  simp only [Style.step]
  unfold quotedStep
  split <;> simp_all

theorem step_escape (inline : isLineBreak c = false) :
    (Style.quoted false interpolated).step ('\\' :: c :: s) = some (.text, s) := by
  simp [Style.step, quotedStep, inline]

theorem step_close : (Style.quoted false interpolated).step ('"' :: s) = some (.close, s) := rfl

theorem step_verbatim (quote : c ≠ '"') :
    (Style.quoted true false).step (c :: s) = some (.text, s) := by
  simp only [Style.step]
  unfold quotedStep
  split <;> simp_all

theorem step_last (apart : s.head? ≠ some '"') :
    (Style.quoted true false).step ('"' :: s) = some (.close, s) := by
  cases s with
  | nil => rfl
  | cons d s =>
    have other : d ≠ '"' := by simpa using apart
    simp [Style.step, quotedStep, other]

theorem step_hole (single : s.head? ≠ some '{') :
    (Style.quoted false true).step ('{' :: s) = some (.hole, s) := by
  cases s with
  | nil => rfl
  | cons d s =>
    have other : d ≠ '{' := by simpa using single
    simp [Style.step, quotedStep, other]

theorem step_raw (quote : c ≠ '"') : (Style.raw quotes 0).step (c :: s) = some (.text, s) := by
  simp only [Style.step]
  unfold rawStep
  split <;> simp_all

theorem step_run {quotes n : Nat} (positive : 0 < n) (apart : s.head? ≠ some '"') :
    (Style.raw quotes 0).step (List.replicate n '"' ++ s) =
      some (if quotes ≤ n then .close else .text, s) := by
  obtain ⟨length, rest⟩ := run_replicate apart n
  obtain ⟨m, rfl⟩ := Nat.exists_eq_succ_of_ne_zero (Nat.pos_iff_ne_zero.mp positive)
  rw [List.replicate_succ, List.cons_append] at length rest ⊢
  rw [Style.step, rawStep, length, rest]

theorem opening_plain (quote : c ≠ '"') (character : c ≠ '\'') (dollar : c ≠ '$') (sign : c ≠ '@') :
    opening (c :: s) = none := by
  have sigil : isSigil c = false := by simp [isSigil, dollar, sign]
  rw [opening_of_sigils character quote (fun same => absurd same sign)]
  simp [sigil]

theorem holeStep_plain (plain : c ∉ ['"', '\'', '{', '}', '/', '$', '@']) :
    holeStep opened (c :: s) = .ok (.text, s) := by
  simp only [List.mem_cons, List.not_mem_nil, or_false, not_or] at plain
  obtain ⟨quote, character, openBrace, closeBrace, slash, dollar, sign⟩ := plain
  unfold holeStep
  rw [opening_plain quote character dollar sign]
  split <;> simp_all

theorem holeStep_openBrace : holeStep opened ('{' :: s) = .ok (.openBrace, s) := by
  simp only [holeStep, opening_plain (c := '{') (by decide) (by decide) (by decide) (by decide)]

theorem holeStep_closeBrace : holeStep opened ('}' :: s) = .ok (.closeBrace, s) := by
  simp only [holeStep, opening_plain (c := '}') (by decide) (by decide) (by decide) (by decide)]

theorem holeStep_character (ends : afterCharacter s = some rest) :
    holeStep opened ('\'' :: s) = .ok (.text, rest) := by
  simp [holeStep, opening, ends]

end Steps

theorem RegularText.closes (h : RegularText s) (opened rest : List Char) :
    (Frame.string (.quoted false false) opened).Closes (s ++ '"' :: rest) rest := by
  induction h with
  | nil => exact .close step_close
  | plain quote escape inline _ ih => exact .text (step_plain quote escape (by simp) inline) ih
  | escape inline _ ih => exact .text (step_escape inline) ih

theorem closes_doubleQuotes (s : List Char) (opened : List Char) (apart : rest.head? ≠ some '"') :
    (Frame.string (.quoted true false) opened).Closes (doubleQuotes s ++ '"' :: rest) rest := by
  induction s with
  | nil => exact .close (step_last apart)
  | cons c s ih =>
    rw [doubleQuotes, List.flatMap_cons, ← doubleQuotes, List.append_assoc]
    by_cases quote : c = '"'
    · rw [if_pos quote]
      exact .text rfl ih
    · rw [if_neg quote]
      exact .text (step_verbatim quote) ih

theorem exists_run (s : List Char) :
    ∃ n t, s = List.replicate n '"' ++ t ∧ t.head? ≠ some '"' := by
  induction s with
  | nil => exact ⟨0, [], rfl, by simp⟩
  | cons c s ih =>
    by_cases quote : c = '"'
    · obtain ⟨n, t, rfl, apart⟩ := ih
      exact ⟨n + 1, t, by rw [quote, List.replicate_succ, List.cons_append], apart⟩
    · exact ⟨0, c :: s, rfl, by simpa using quote⟩

/-- A raw string is read run by run: of its quotes only the closing run is long enough. -/
theorem closes_raw (opened : List Char) (apart : rest.head? ≠ some '"') (positive : 0 < quotes)
    (s : List Char) (last : s.getLast? ≠ some '"') (short : ¬ List.replicate quotes '"' <:+: s) :
    (Frame.string (.raw quotes 0) opened).Closes (s ++ (List.replicate quotes '"' ++ rest))
      rest := by
  induction size : s.length using Nat.strongRecOn generalizing s with
  | ind length ih =>
    obtain ⟨n, t, rfl, other⟩ := exists_run s
    cases t with
    | nil =>
      have none : n = 0 := by
        cases n with
        | zero => rfl
        | succ n => simp [List.getLast?_replicate] at last
      rw [none]
      exact .close (by simpa using @step_run rest quotes quotes positive apart)
    | cons c t =>
      have quote : c ≠ '"' := by simpa using other
      have last' : (c :: t).getLast? ≠ some '"' := by simpa [List.getLast?_append] using last
      have short' : ¬ List.replicate quotes '"' <:+: c :: t := fun run =>
        short (run.trans (List.suffix_append _ _).isInfix)
      cases n with
      | zero =>
        have inner : ¬ List.replicate quotes '"' <:+: t := fun run =>
          short' (run.trans (List.suffix_cons _ _).isInfix)
        have ends : t.getLast? ≠ some '"' := by
          cases t with
          | nil => simp
          | cons d t => simpa using last'
        have less : t.length < length := by
          rw [← size]
          simp
        exact .text (step_raw quote) (ih t.length less t ends inner rfl)
      | succ n =>
        -- a run inside the text is too short to close it
        have fewer : ¬ quotes ≤ n + 1 := by
          intro more
          apply short
          rw [← Nat.add_sub_cancel' more, ← List.replicate_append_replicate, List.append_assoc]
          exact (List.prefix_append _ _).isInfix
        have run := @step_run (c :: t ++ (List.replicate quotes '"' ++ rest)) quotes (n + 1)
          (by omega) other
        rw [if_neg fewer] at run
        have less : (c :: t).length < length := by
          rw [← size, List.length_append, List.length_replicate]
          omega
        rw [List.append_assoc]
        exact .text run (ih (c :: t).length less (c :: t) last' short' rfl)

theorem opening_regular (first : s.head? ≠ some '"') (apart : rest.head? ≠ some '"') :
    opening ('"' :: (s ++ '"' :: rest)) =
      some (.string (.quoted false false), s ++ '"' :: rest) := by
  have short := runLength_short first apart
  simp only [opening, stringOpening, short, if_false]
  rfl

theorem opening_interpolated (first : s.head? ≠ some '"') (apart : rest.head? ≠ some '"') :
    opening ('$' :: '"' :: (s ++ '"' :: rest)) =
      some (.string (.quoted false true), s ++ '"' :: rest) := by
  have short := runLength_short first apart
  rw [opening_of_sigils (by decide) (by decide) (by simp)]
  simp only [List.takeWhile_cons, List.dropWhile_cons, show isSigil '$' = true from rfl,
    show isSigil '"' = false from rfl, if_true, if_false, Bool.false_eq_true]
  simp only [stringOpening, short, if_false]
  rfl

theorem opening_raw (long : 3 ≤ quotes) (first : s.head? ≠ some '"') :
    opening (List.replicate quotes '"' ++ s) = some (.string (.raw quotes 0), s) := by
  obtain ⟨length, rest⟩ := run_replicate first quotes
  obtain ⟨m, rfl⟩ := Nat.exists_eq_succ_of_ne_zero (show quotes ≠ 0 by omega)
  rw [List.replicate_succ, List.cons_append] at length rest ⊢
  simp only [opening, stringOpening, length, rest, long, if_true]

/-- What the scanner makes of a written text with more behind it. -/
def Part.Passed : Part → List Char → Prop
  | .literal, l => ∀ rest, rest.head? ≠ some '"' → ∃ style inner,
      opening (l ++ rest) = some (.string style, inner) ∧
        ∀ opened, (Frame.string style opened).Closes inner rest
  | .pieces, s => ∀ opened rest,
      (Frame.string (.quoted false true) opened).Closes (s ++ '"' :: rest) rest
  | .contents, h => ∀ braces opened s rest, s.head? ≠ some '"' →
      (Frame.hole braces opened).Closes s rest → (Frame.hole braces opened).Closes (h ++ s) rest

theorem Written.passed {part : Part} (h : Written part text) : part.Passed text := by
  induction h with
  | @regular s text =>
    intro rest apart
    rw [List.cons_append, List.cons_append, List.append_assoc, List.singleton_append]
    exact ⟨_, _, opening_regular text.head_ne apart, fun opened => text.closes opened rest⟩
  | verbatim s =>
    intro rest apart
    rw [List.cons_append, List.cons_append, List.cons_append, List.cons_append, List.append_assoc,
      List.singleton_append]
    exact ⟨_, _, rfl, fun opened => closes_doubleQuotes s opened apart⟩
  | @raw quotes s long text =>
    intro rest apart
    rw [List.append_assoc, List.append_assoc]
    refine ⟨_, _, opening_raw long ?_, fun opened =>
      closes_raw opened apart (by omega) s text.last text.apart⟩
    rw [List.head?_append_of_ne_nil _ text.nonempty]
    exact text.first
  | @interpolated s text ih =>
    intro rest apart
    rw [List.cons_append, List.cons_append, List.cons_append, List.cons_append, List.append_assoc,
      List.singleton_append]
    exact ⟨_, _, opening_interpolated text.head_ne apart, fun opened => ih opened rest⟩
  | noPiece =>
    intro opened rest
    exact .close step_close
  | plainPiece quote escape brace inline _ ih =>
    intro opened rest
    exact .text (step_plain quote escape (fun _ => brace) inline) (ih opened rest)
  | escape inline _ ih =>
    intro opened rest
    exact .text (step_escape inline) (ih opened rest)
  | brace _ ih =>
    intro opened rest
    exact .text rfl (ih opened rest)
  | @hole h s _ single _ contents more =>
    intro opened rest
    have first : (h ++ '}' :: (s ++ '"' :: rest)).head? ≠ some '{' := by
      cases h with
      | nil => simp
      | cons c h => exact single
    rw [List.cons_append, List.cons_append, List.append_assoc, List.cons_append]
    exact .hole (step_hole first) (contents 0 opened _ _ (by simp) (.leave holeStep_closeBrace))
      (more opened rest)
  | noContent =>
    intro braces opened s rest _ closes
    exact closes
  | plainContent plain _ ih =>
    intro braces opened s rest apart closes
    exact .pass (holeStep_plain plain) (ih braces opened s rest apart closes)
  | @literal l t _ apart _ text ih =>
    intro braces opened s rest apart' closes
    -- no quote follows the literal, be it in the contents or behind them
    have behind : (t ++ s).head? ≠ some '"' := by
      cases t with
      | nil => exact apart'
      | cons c t => exact apart
    obtain ⟨style, inner, opens, inside⟩ := text (t ++ s) behind
    rw [List.append_assoc]
    refine .string ?_ (inside _) (ih braces opened s rest apart' closes)
    simp only [holeStep, opens]
  | @character k t text _ ih =>
    intro braces opened s rest apart closes
    rw [List.cons_append, List.cons_append, List.append_assoc, List.cons_append]
    exact .pass (holeStep_character (text.after_eq _)) (ih braces opened s rest apart closes)
  | @group g t _ _ inner ih =>
    intro braces opened s rest apart closes
    rw [List.cons_append, List.cons_append, List.append_assoc, List.cons_append]
    refine .openBrace holeStep_openBrace (inner (braces + 1) opened _ _ (by simp) ?_)
    exact .closeBrace holeStep_closeBrace (ih braces opened s rest apart closes)

theorem Written.after_eq (h : Written .literal text) (apart : rest.head? ≠ some '"') :
    after (text ++ rest) = .ok (some rest) := by
  obtain ⟨style, inner, opens, closes⟩ := h.passed rest apart
  have scanned : scan [.string style (text ++ rest)] inner = .ok rest := by
    rw [(closes _).scan_eq [], scan]
  simp only [after, opens, scanned]

theorem Written.front (h : Written .literal text) :
    ∃ a more, text = a :: more ∧ a ∈ ['"', '@', '$'] := by
  cases h with
  | regular => exact ⟨_, _, rfl, by simp⟩
  | verbatim => exact ⟨_, _, rfl, by simp⟩
  | @raw quotes s long =>
    obtain ⟨m, rfl⟩ := Nat.exists_eq_succ_of_ne_zero (show quotes ≠ 0 by omega)
    exact ⟨_, _, rfl, by simp⟩
  | interpolated => exact ⟨_, _, rfl, by simp⟩

end Literal

open Literal

namespace Cursor

variable {c : Cursor} {a : Char}

theorem leadingPiece_of_front (ahead : c.rest = a :: s) (front : a ∈ ['"', '@', '$']) :
    c.leadingPiece = .ok none := by
  have plain : isLineBreak a = false ∧ isSpace a = false ∧ a ≠ '#' ∧ a ≠ '/' := by
    simp only [List.mem_cons, List.not_mem_nil, or_false] at front
    rcases front with rfl | rfl | rfl <;> decide
  obtain ⟨inline, solid, hash, slash⟩ := plain
  have comment : Piece.comment? (a :: s) = .ok none := by
    unfold Piece.comment?
    split <;> simp_all
  simp [leadingPiece, inlinePiece, ahead, inline, solid, hash, comment]

def behind (c : Cursor) (text rest : List Char) : Cursor :=
  { c.move text rest with lineStart := false }

theorem tokens_of_lexeme {c' : Cursor} {l : Lexeme} (stopped : c.leadingPiece = .ok none)
    (ahead : c.rest = a :: s) (found : c.lexeme a s = .ok (l, c')) : c.tokens = (do
      let (trailing, c₁) ← c'.trailing
      let stream ← c₁.tokens
      return { stream with tokens := ⟨l, [], trailing, c.position⟩ :: stream.tokens }) := by
  rw [tokens]
  split
  · rename_i lead
    rw [leading_of_stopped stopped] at lead
    cases lead
  · rename_i lead
    rw [leading_of_stopped stopped] at lead
    cases lead
    split
    · simp_all
    · rename_i ahead'
      rw [ahead] at ahead'
      cases ahead'
      split
      · simp_all
      · rename_i found'
        rw [found] at found'
        cases found'
        split
        · rename_i trail
          simp [trail, bind, Except.bind]
        · rename_i trail
          simp only [trail, bind, Except.bind]
          split
          · rename_i more
            simp [more]
          · rename_i more
            simp [more, pure, Except.pure]

theorem lexeme_of_literal (literal : Written .literal text) (apart : rest.head? ≠ some '"')
    (front : a :: s = text ++ rest) :
    c.lexeme a s = .ok (⟨.literal, String.ofList text⟩, c.behind text rest) := by
  have ended : after (a :: s) = .ok (some rest) := by
    rw [front]
    exact literal.after_eq apart
  have before : textBefore (a :: s) rest = text := by
    rw [front]
    exact textBefore_append_self text rest
  simp only [lexeme, Piece.lexeme, ended, before]
  rfl

/-- A literal of the grammar that no quote follows is one token without leading trivia, wherever
the lexer stands; it goes on behind the literal. -/
theorem tokens_of_literal {text rest : List Char} (literal : Written .literal text)
    (apart : rest.head? ≠ some '"') {c : Cursor} (here : c.rest = text ++ rest) :
    c.leading = .ok ([], c) ∧
    (∃ a s, c.rest = a :: s ∧
      c.lexeme a s = .ok (⟨.literal, String.ofList text⟩, c.behind text rest)) ∧
    c.tokens = (do
      let (trailing, c₁) ← (c.behind text rest).trailing
      let stream ← c₁.tokens
      return { stream with tokens :=
        ⟨⟨.literal, String.ofList text⟩, [], trailing, c.position⟩ :: stream.tokens }) := by
  obtain ⟨a, more, rfl, front⟩ := literal.front
  have stopped := leadingPiece_of_front here front
  have found : c.lexeme a (more ++ rest) = _ := lexeme_of_literal literal apart rfl
  exact ⟨leading_of_stopped stopped, ⟨a, more ++ rest, here, found⟩,
    tokens_of_lexeme stopped here found⟩

/-- In `$"{b?"};":'}'}";` the literal ends with the quote before the last character: the braces,
the quotes and the semicolon in its hole are text of the literals there. -/
theorem tokens_of_literal_in_hole :
    let text := ['$', '"', '{', 'b', '?', '"', '}', ';', '"', ':', '\'', '}', '\'', '}', '"']
    let c := Cursor.ofText (text ++ [';']) []
    c.leading = .ok ([], c) ∧
    (∃ a s, c.rest = a :: s ∧
      c.lexeme a s = .ok (⟨.literal, String.ofList text⟩, c.behind text [';'])) ∧
    c.tokens = (do
      let (trailing, c₁) ← (c.behind text [';']).trailing
      let stream ← c₁.tokens
      return { stream with tokens :=
        ⟨⟨.literal, String.ofList text⟩, [], trailing, ⟨1, 1⟩⟩ :: stream.tokens }) := by
  have string : Written .literal ['"', '}', ';', '"'] :=
    .regular (.plain (by decide) (by decide) (by decide)
      (.plain (by decide) (by decide) (by decide) .nil))
  have character : CharacterText ['}'] := .plain (by decide) (by decide) (by decide) .nil
  have behind : Written .contents [':', '\'', '}', '\''] :=
    .plainContent (by decide) (.character character .noContent)
  have contents : Written .contents ['b', '?', '"', '}', ';', '"', ':', '\'', '}', '\''] :=
    .plainContent (by decide) (.plainContent (by decide) (.literal string (by decide) behind))
  exact tokens_of_literal (.interpolated (.hole contents (by decide) .noPiece)) (by decide) rfl

end Cursor

end CSharpTidy
