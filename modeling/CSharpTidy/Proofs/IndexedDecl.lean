import CSharpTidy.Proofs.IndexedScan
import CSharpTidy.Proofs.RoundTrip

/- Declarations by the indices of their first and their last token. The text is joined from
   neighbours, and the line that a token stands on is looked for backwards. No check fails, and the
   declaration is the one that is cut off the tokens. -/
namespace CSharpTidy.Indexed

open Checked PlacedToken

/-- The trivia behind the last token lead to the end of the file. -/
def leadingAt (s : TokenStream) (i : Nat) : Check Span := do
  return (← cell s i).elim s.tail (·.leading)

def trailingAt (s : TokenStream) (i : Nat) : Check Span := do
  return (← cell s i).elim [] (·.trailing)

def joinFrom (s : TokenStream) (stop : Nat) (text : String) (i : Nat) : Check String :=
  if i ≤ stop then do
    let before ← sub i 1
    let gap := Span.text (← trailingAt s before) ++ Span.text (← leadingAt s i)
    joinFrom s stop (text ++ gap ++ (← textAt s i)) (i + 1)
  else .ok text
termination_by stop + 1 - i

def join (s : TokenStream) (start stop : Nat) : Check String := do
  joinFrom s stop (← textAt s start) (start + 1)

def startsLine (s : TokenStream) (i : Nat) : Check Bool := do
  if i = 0 then return true
  if Span.breaksLine (← leadingAt s i) then return true
  return Span.breaksLine (← trailingAt s (← sub i 1))

def lineFirst (s : TokenStream) : Nat → Check Nat
  | 0 => do if ← startsLine s 0 then return 0 else .error .underflow
  | i + 1 => do if ← startsLine s (i + 1) then return i + 1 else lineFirst s i

def lastBreak? : Span → Option Nat
  | [] => none
  | t :: rest =>
      match lastBreak? rest with
      | some i => some (i + 1)
      | none => if t.breaksLine then some 0 else none

/-- The indentation of the line of a token, unless the token is the first one there. -/
def lineIndent (s : TokenStream) (i : Nat) : Check (Option String) := do
  if ← startsLine s i then return none
  let first ← lineFirst s (← sub i 1)
  let leading ← leadingAt s first
  let line ← slice leading ((lastBreak? leading).elim 0 (· + 1)) leading.length
  return some (Span.text (line.takeWhile Trivia.isWhitespace))

def declFrom (s : TokenStream) (start stop : Nat) (kind : DeclKind) (visibility : Visibility)
    (key : DeclKey) : Check Decl := do
  let text ← join s start stop
  let leading ← leadingAt s start
  let trailing ← trailingAt s stop
  let indent ← lineIndent s start
  return { kind := kind, visibility := visibility, key := key, leading := leading, text := text,
           trailing := trailing, lineIndent := indent }

variable {s : TokenStream} {i : Nat} {t : Token}

theorem leadingAt_eq (here : s.tokens[i]? = some t) : leadingAt s i = .ok t.leading := by
  rw [leadingAt, cell_eq, here]
  rfl

theorem trailingAt_eq (here : s.tokens[i]? = some t) : trailingAt s i = .ok t.trailing := by
  rw [trailingAt, cell_eq, here]
  rfl

variable {p : PlacedToken} {stop start k : Nat}

theorem token_of_placed (here : (place s.tokens)[i]? = some p) : s.tokens[i]? = some p.toToken := by
  rw [← place_toToken s.tokens, List.getElem?_map, here]
  rfl

theorem placed_of_lt (inside : i < s.tokens.length) : ∃ p, (place s.tokens)[i]? = some p :=
  ⟨_, List.getElem?_eq_getElem (by rwa [place_length])⟩

theorem joinFrom_eq (inside : stop < s.tokens.length) (last : k ≤ stop)
    (here : (place s.tokens)[k]? = some p) (text : String) :
    joinFrom s stop (text ++ p.text) (k + 1) =
      .ok (text ++ PlacedToken.join ((place s.tokens).extract k (stop + 1))) := by
  induction distance : stop - k generalizing k p text with
  | zero =>
    obtain rfl : k = stop := by omega
    rw [joinFrom, if_neg (by omega), extract_of_some here (by omega), extract_of_le (by omega)]
    rfl
  | succ distance ih =>
    obtain ⟨next, further⟩ := placed_of_lt (s := s) (i := k + 1) (by omega)
    have rest := ih (k := k + 1) (by omega) further
      (text ++ (p.text ++ Span.text p.trailing ++ Span.text next.leading)) (by omega)
    rw [joinFrom, if_pos (by omega), sub_succ, ok_bind, trailingAt_eq (token_of_placed here), ok_bind,
      leadingAt_eq (token_of_placed further), ok_bind, textAt_eq (token_of_placed further), ok_bind]
    rw [extract_of_some here (by omega), extract_of_some further (by omega), PlacedToken.join,
      ← extract_of_some further (by omega)]
    simpa only [String.append_assoc] using rest

theorem join_eq (order : start ≤ stop) (inside : stop < s.tokens.length) :
    join s start stop = .ok (PlacedToken.join ((place s.tokens).extract start (stop + 1))) := by
  obtain ⟨p, here⟩ := placed_of_lt (s := s) (i := start) (by omega)
  have joined := joinFrom_eq inside order here ""
  rw [String.empty_append, String.empty_append] at joined
  rw [join, textAt_eq (token_of_placed here), ok_bind, joined]

/-- Whether the next token is the first one on its line, and the indentation of the line, behind
one more token. -/
def afterToken (line : Bool × String) (t : Token) : Bool × String :=
  (Span.breaksLine t.trailing,
    if line.1 || Span.breaksLine t.leading then Span.indentation t.leading else line.2)

def lineBefore (s : TokenStream) (i : Nat) : Bool × String :=
  (s.tokens.take i).foldl afterToken (true, "")

theorem lineBefore_succ (here : s.tokens[i]? = some t) :
    lineBefore s (i + 1) = afterToken (lineBefore s i) t := by
  rw [lineBefore, List.take_add_one, here, List.foldl_append]
  rfl

theorem placeFrom_lineIndent (line : Bool × String) (ts : List Token)
    (here : (placeFrom line.1 line.2 ts)[i]? = some p) : p.lineIndent =
      if ((ts.take i).foldl afterToken line).1 || Span.breaksLine p.leading then none
      else some ((ts.take i).foldl afterToken line).2 := by
  induction ts generalizing line i with
  | nil => simp [placeFrom] at here
  | cons t rest ih =>
    cases i with
    | zero =>
      rw [placeFrom, List.getElem?_cons_zero] at here
      cases here
      rfl
    | succ i =>
      rw [placeFrom, List.getElem?_cons_succ] at here
      exact ih (afterToken line t) here

theorem startsLine_eq (here : s.tokens[i]? = some t) :
    startsLine s i = .ok ((lineBefore s i).1 || Span.breaksLine t.leading) := by
  cases i with
  | zero => rfl
  | succ i =>
    have inside := (List.getElem?_eq_some_iff.mp here).1
    have before : s.tokens[i]? = some s.tokens[i] := List.getElem?_eq_getElem (by omega)
    rw [startsLine, if_neg (Nat.succ_ne_zero i), leadingAt_eq here, ok_bind, sub_succ, ok_bind,
      trailingAt_eq before, ok_bind, lineBefore_succ before]
    cases breaks : Span.breaksLine t.leading with
    | true => rw [Bool.or_true]; rfl
    | false => rw [Bool.or_false]; rfl

theorem lineFirst_eq (here : s.tokens[i]? = some t) :
    ∃ j first, lineFirst s i = .ok j ∧ s.tokens[j]? = some first ∧
      (lineBefore s (i + 1)).2 = Span.indentation first.leading := by
  induction i generalizing t with
  | zero => exact ⟨0, t, rfl, here, by rw [lineBefore_succ here]; rfl⟩
  | succ i ih =>
    have inside := (List.getElem?_eq_some_iff.mp here).1
    rw [lineFirst, startsLine_eq here, ok_bind, lineBefore_succ here, afterToken]
    split
    · exact ⟨i + 1, t, rfl, here, rfl⟩
    · exact ih (List.getElem?_eq_getElem (by omega))

theorem lastBreak?_lt {span : Span} (h : lastBreak? span = some k) : k < span.length := by
  induction span generalizing k with
  | nil => cases h
  | cons t rest ih =>
    rw [lastBreak?] at h
    split at h
    · rename_i found
      cases h
      exact Nat.succ_lt_succ (ih found)
    · split at h
      · cases h
        exact Nat.succ_pos _
      · cases h

theorem drop_lastBreak? (span : Span) :
    span.drop ((lastBreak? span).elim 0 (· + 1)) =
      (span.reverse.takeWhile fun t => !t.breaksLine).reverse := by
  induction span with
  | nil => rfl
  | cons t rest ih =>
    have length := congrArg List.length ih
    rw [List.length_reverse, List.length_drop] at length
    rw [List.reverse_cons, List.takeWhile_append, lastBreak?]
    cases found : lastBreak? rest with
    | some k =>
      have inside := lastBreak?_lt found
      rw [found, Option.elim_some] at ih length
      have part : ¬ (rest.reverse.takeWhile fun t => !t.breaksLine).length = rest.reverse.length := by
        rw [← length, List.length_reverse]
        omega
      rw [if_neg part, ← ih]
      rfl
    | none =>
      rw [found, Option.elim_none, List.drop_zero] at ih
      have whole : rest.reverse.takeWhile (fun t => !t.breaksLine) = rest.reverse :=
        List.reverse_eq_iff.mp ih.symm
      rw [whole, if_pos rfl, List.reverse_append, List.reverse_reverse]
      cases breaks : t.breaksLine <;> simp [breaks]

theorem lineIndent_eq (here : (place s.tokens)[i]? = some p) :
    lineIndent s i = .ok p.lineIndent := by
  have token := token_of_placed here
  have indent : p.lineIndent = if (lineBefore s i).1 || Span.breaksLine p.leading then none
      else some (lineBefore s i).2 :=
    placeFrom_lineIndent (true, "") s.tokens here
  rw [lineIndent, startsLine_eq token, ok_bind, indent]
  split
  · rfl
  · rename_i inside
    cases i with
    | zero => simp [lineBefore] at inside
    | succ i =>
      have bound := (List.getElem?_eq_some_iff.mp token).1
      obtain ⟨first, t, found, isFirst, line⟩ :=
        lineFirst_eq (s := s) (i := i) (List.getElem?_eq_getElem (by omega))
      have start : (lastBreak? t.leading).elim 0 (· + 1) ≤ t.leading.length := by
        cases last : lastBreak? t.leading with
        | none => exact Nat.zero_le _
        | some k => exact lastBreak?_lt last
      rw [sub_succ, ok_bind, found, ok_bind, leadingAt_eq isFirst, ok_bind,
        slice_of_le start (Nat.le_refl _), ok_bind, line, Span.indentation, ← drop_lastBreak?,
        List.extract_eq_take_drop, ← List.length_drop, List.take_length]
      rfl

theorem leadingOf_extract (here : (place s.tokens)[start]? = some p) (order : start < stop) :
    leadingOf ((place s.tokens).extract start stop) = p.leading := by
  rw [extract_of_some here order]
  rfl

theorem trailingOf_extract (here : (place s.tokens)[stop]? = some p) (order : start ≤ stop) :
    trailingOf ((place s.tokens).extract start (stop + 1)) = p.trailing := by
  have inside := (List.getElem?_eq_some_iff.mp here).1
  have last : ((place s.tokens).extract start (stop + 1)).getLast? = some p := by
    rw [List.getLast?_eq_getElem?, List.length_take, List.length_drop,
      List.getElem?_take_of_lt (by omega), List.getElem?_drop, ← here]
    congr 1
    omega
  rw [trailingOf, last]

theorem declFrom_eq (order : start ≤ stop) (inside : stop < s.tokens.length) (kind : DeclKind)
    (visibility : Visibility) (key : DeclKey) : declFrom s start stop kind visibility key =
      .ok ((Outline.Entry.mk kind visibility key (stop + 1 - start) none).build
        ((place s.tokens).drop start)).1 := by
  obtain ⟨first, isFirst⟩ := placed_of_lt (s := s) (i := start) (by omega)
  obtain ⟨last, isLast⟩ := placed_of_lt (s := s) (i := stop) inside
  rw [declFrom, join_eq order inside, ok_bind, leadingAt_eq (token_of_placed isFirst), ok_bind,
    trailingAt_eq (token_of_placed isLast), ok_bind, lineIndent_eq isFirst, ok_bind]
  rw [Outline.Entry.build, ← List.extract_eq_take_drop, leadingOf_extract isFirst (by omega),
    trailingOf_extract isLast order, extract_of_some isFirst (by omega)]
  rfl

end CSharpTidy.Indexed
