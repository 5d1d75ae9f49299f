import CSharpTidy.Proofs.ScanLocality

/- Where literals and comments end. A construct closes by rules of its own, one for each kind of
   step inside it; the scanner, which keeps a stack of open constructs, gets to the end of a
   construct exactly if it closes. A scan that fails names a construct that does not. -/
namespace CSharpTidy

namespace Literal

inductive CharacterText : List Char → Prop
  | nil : CharacterText []
  | plain {c : Char} {s : List Char} (quote : c ≠ '\'') (escape : c ≠ '\\')
      (inline : isLineBreak c = false) (more : CharacterText s) : CharacterText (c :: s)
  | escape {c : Char} {s : List Char} (more : CharacterText s) : CharacterText ('\\' :: c :: s)

theorem CharacterText.after_eq {k : List Char} (h : CharacterText k) (rest : List Char) :
    afterCharacter (k ++ '\'' :: rest) = some rest := by
  induction h with
  | nil => rfl
  | plain quote escape inline _ ih =>
    rw [List.cons_append, afterCharacter_cons escape quote, inline]
    exact ih
  | escape _ ih => exact ih

variable {s text opened rest s' : List Char} {stack inside inside' : List Frame} {u : Unterminated}
  {style : Style} {frame : Frame}

theorem afterBlockComment_eq_none_iff : afterBlockComment s = none ↔ ¬ ['*', '/'] <:+: s := by
  fun_induction afterBlockComment s with
  | case1 => simp
  | case2 rest =>
    have here : ['*', '/'] <:+: '*' :: '/' :: rest := (List.prefix_append ['*', '/'] rest).isInfix
    simp [here]
  | case3 c rest other ih =>
    rw [ih, List.infix_cons_iff]
    have front : ¬ ['*', '/'] <+: c :: rest := by
      rintro ⟨t, same⟩
      cases same
      exact other t rfl rfl
    simp [front]

/-- Read on from `s`, the open construct comes to its end, and `rest` is behind it. What is open
inside a hole must close before the hole does. -/
inductive Frame.Closes : Frame → List Char → List Char → Prop
  | close {style : Style} {opened s rest : List Char} (step : style.step s = some (.close, rest)) :
      Closes (.string style opened) s rest
  | text {style : Style} {opened s s' rest : List Char} (step : style.step s = some (.text, s'))
      (more : Closes (.string style opened) s' rest) : Closes (.string style opened) s rest
  | hole {style : Style} {opened s s' s'' rest : List Char} (step : style.step s = some (.hole, s'))
      (inner : Closes (.hole 0 opened) s' s'') (more : Closes (.string style opened) s'' rest) :
      Closes (.string style opened) s rest
  | leave {opened s rest : List Char} (step : holeStep opened s = .ok (.closeBrace, rest)) :
      Closes (.hole 0 opened) s rest
  | pass {braces : Nat} {opened s s' rest : List Char} (step : holeStep opened s = .ok (.text, s'))
      (more : Closes (.hole braces opened) s' rest) : Closes (.hole braces opened) s rest
  | openBrace {braces : Nat} {opened s s' rest : List Char}
      (step : holeStep opened s = .ok (.openBrace, s'))
      (more : Closes (.hole (braces + 1) opened) s' rest) : Closes (.hole braces opened) s rest
  | closeBrace {braces : Nat} {opened s s' rest : List Char}
      (step : holeStep opened s = .ok (.closeBrace, s'))
      (more : Closes (.hole braces opened) s' rest) : Closes (.hole (braces + 1) opened) s rest
  | string {style : Style} {braces : Nat} {opened s s' s'' rest : List Char}
      (step : holeStep opened s = .ok (.string style, s')) (inner : Closes (.string style s) s' s'')
      (more : Closes (.hole braces opened) s'' rest) : Closes (.hole braces opened) s rest

theorem Frame.Closes.scan_eq (h : frame.Closes s rest) (outer : List Frame) :
    scan (frame :: outer) s = scan outer rest := by
  induction h generalizing outer with
  | close step => exact scan_string step _ outer
  | text step _ ih => exact (scan_string step _ outer).trans (ih outer)
  | hole step _ _ inner more =>
    exact ((scan_string step _ outer).trans (inner _)).trans (more outer)
  | leave step => exact scan_hole step 0 outer
  | pass step _ ih | openBrace step _ ih | closeBrace step _ ih =>
    exact (scan_hole step _ outer).trans (ih outer)
  | string step _ _ inner more =>
    exact ((scan_hole step _ outer).trans (inner _)).trans (more outer)

def CloseAll : List Frame → List Char → List Char → Prop
  | [], s, rest => s = rest
  | frame :: outer, s, rest => ∃ s', frame.Closes s s' ∧ CloseAll outer s' rest

theorem closeAll_of_scan (h : scan stack s = .ok rest) : CloseAll stack s rest := by
  fun_induction scan stack s with
  | case1 s => exact Except.ok.inj h
  | case2 => cases h
  | case3 s style opened outer step s' passed ih =>
    have later := ih h
    cases step with
    | text =>
      obtain ⟨s'', closes, outside⟩ := later
      exact ⟨s'', .text passed closes, outside⟩
    | close => exact ⟨s', .close passed, later⟩
    | hole =>
      obtain ⟨_, inner, s'', closes, outside⟩ := later
      exact ⟨s'', .hole passed inner closes, outside⟩
  | case4 => cases h
  | case5 s braces opened outer step s' passed ih =>
    have later := ih h
    cases step with
    | text =>
      obtain ⟨s'', closes, outside⟩ := later
      exact ⟨s'', .pass passed closes, outside⟩
    | string style =>
      obtain ⟨_, inner, s'', closes, outside⟩ := later
      exact ⟨s'', .string passed inner closes, outside⟩
    | openBrace =>
      obtain ⟨s'', closes, outside⟩ := later
      exact ⟨s'', .openBrace passed closes, outside⟩
    | closeBrace =>
      cases braces with
      | zero => exact ⟨s', .leave passed, later⟩
      | succ braces =>
        obtain ⟨s'', closes, outside⟩ := later
        exact ⟨s'', .closeBrace passed closes, outside⟩

theorem scan_eq_ok_iff : scan [frame] s = .ok rest ↔ frame.Closes s rest := by
  constructor
  · intro h
    obtain ⟨s', closes, rfl⟩ := closeAll_of_scan h
    exact closes
  · intro h
    rw [h.scan_eq [], scan]

/-- What the scanner has open, and where it stands, on its way through the string that begins
at `text`. -/
inductive Visits (text : List Char) : List Frame → List Char → Prop
  | start {style : Style} {s : List Char} (opens : opening text = some (.string style, s)) :
      Visits text [.string style text] s
  | string {style : Style} {opened s s' : List Char} {outer : List Frame} {step : StringStep}
      (before : Visits text (.string style opened :: outer) s)
      (next : style.step s = some (step, s')) : Visits text (step.frames style opened outer) s'
  | hole {braces : Nat} {opened s s' : List Char} {outer : List Frame} {step : HoleStep}
      (before : Visits text (.hole braces opened :: outer) s)
      (next : holeStep opened s = .ok (step, s')) :
      Visits text (step.frames s braces opened outer) s'

/-- Code is read at `s`: there the string begins, or `s` stands in one of its holes. -/
def CodeIn (text s : List Char) : Prop :=
  s = text ∨ ∃ braces opened outer, Visits text (.hole braces opened :: outer) s

theorem Visits.suffix (h : Visits text stack s) : s <:+ text := by
  induction h with
  | start opens => exact opening_suffix opens
  | string _ next ih => exact (Style.step_suffix next).trans ih
  | hole _ next ih => exact (holeStep_suffix next).trans ih

theorem CodeIn.suffix (h : CodeIn text s) : s <:+ text := by
  rcases h with rfl | ⟨braces, opened, outer, visits⟩
  · exact List.suffix_rfl
  · exact visits.suffix

/-- A string on the stack began where code is read. Had it been scanned alone, the scanner would
now have `inside` open and stand at `s`. -/
structure Anchored (text : List Char) (style : Style) (opened : List Char) (inside : List Frame)
    (s : List Char) : Prop where
  code : CodeIn text opened
  scanned : ∃ t, opening opened = some (.string style, t) ∧
    scan [.string style opened] t = scan inside s

/-- The strings of a stack are anchored, where `inside` is open inside all of them. A hole belongs
to the string below it. -/
def AnchoredAll (text s : List Char) (inside : List Frame) : List Frame → Prop
  | [] => True
  | .string style opened :: outer =>
      Anchored text style opened (inside ++ [.string style opened]) s ∧
        AnchoredAll text s (inside ++ [.string style opened]) outer
  | .hole braces opened :: outer =>
      (∃ style outer', outer = .string style opened :: outer') ∧
        AnchoredAll text s (inside ++ [.hole braces opened]) outer

theorem Anchored.step (h : Anchored text style opened inside s)
    (same : scan inside s = scan inside' s') : Anchored text style opened inside' s' := by
  obtain ⟨code, t, opens, scanned⟩ := h
  exact ⟨code, t, opens, scanned.trans same⟩

theorem AnchoredAll.step (h : AnchoredAll text s inside stack)
    (same : ∀ below, scan (inside ++ below) s = scan (inside' ++ below) s') :
    AnchoredAll text s' inside' stack := by
  induction stack generalizing inside inside' with
  | nil => trivial
  | cons frame outer ih =>
    have deeper : ∀ below,
        scan (inside ++ [frame] ++ below) s = scan (inside' ++ [frame] ++ below) s' := by
      intro below
      simpa using same (frame :: below)
    cases frame with
    | string style opened => exact ⟨h.1.step (same _), ih h.2 deeper⟩
    | hole braces opened => exact ⟨h.1, ih h.2 deeper⟩

theorem holeStep_string (h : holeStep opened s = .ok (.string style, s')) :
    opening s = some (.string style, s') := by
  unfold holeStep at h
  grind

theorem Visits.anchoredAll (h : Visits text stack s) : AnchoredAll text s [] stack := by
  induction h with
  | @start style s opens => exact ⟨⟨.inl rfl, s, opens, rfl⟩, trivial⟩
  | @string style opened s s' outer step before next ih =>
    obtain ⟨own, below⟩ := ih
    have moves := fun below => scan_string next opened below
    cases step with
    | text => exact ⟨own.step (moves _), below.step moves⟩
    | close => exact below.step moves
    | hole => exact ⟨⟨style, outer, rfl⟩, own.step (moves _), below.step moves⟩
  | @hole braces opened s s' outer step before next ih =>
    obtain ⟨owner, below⟩ := ih
    have moves := fun below => scan_hole next braces below
    cases step with
    | text => exact ⟨owner, below.step moves⟩
    | string style =>
      -- the only step that puts a string on the stack, and it is taken in code
      have begins : Anchored text style s [.string style s] s' :=
        ⟨.inr ⟨braces, opened, outer, before⟩, s', holeStep_string next, rfl⟩
      exact ⟨begins, owner, below.step moves⟩
    | openBrace => exact ⟨owner, below.step moves⟩
    | closeBrace =>
      cases braces with
      | zero => exact below.step moves
      | succ braces => exact ⟨owner, below.step moves⟩

/-- The construct that begins here has no end. An interpolated string is called a string or, where
one of its holes is not closed, an interpolation. -/
inductive LeftOpen : Construct → List Char → Prop
  | comment {s : List Char} (endless : ¬ ['*', '/'] <:+: s) : LeftOpen .comment ('/' :: '*' :: s)
  | character {s : List Char} (endless : ∀ k rest, CharacterText k → s ≠ k ++ '\'' :: rest) :
      LeftOpen .character ('\'' :: s)
  | string {what : Construct} {style : Style} {opened s : List Char}
      (kind : what = style.construct ∨ what = .interpolation)
      (opens : opening opened = some (.string style, s))
      (endless : ∀ rest, ¬ (Frame.string style opened).Closes s rest) : LeftOpen what opened

theorem LeftOpen.of_afterCharacter (h : afterCharacter s = none) :
    LeftOpen .character ('\'' :: s) := by
  refine .character ?_
  rintro k rest text rfl
  rw [text.after_eq rest] at h
  cases h

theorem LeftOpen.of_afterBlockComment (h : afterBlockComment s = none) :
    LeftOpen .comment ('/' :: '*' :: s) :=
  .comment (afterBlockComment_eq_none_iff.mp h)

/-- The construct was begun where code is read, and has no end. -/
structure Blamed (text : List Char) (u : Unterminated) : Prop where
  code : CodeIn text u.opened
  endless : LeftOpen u.what u.opened

theorem Anchored.blamed {what : Construct} (h : Anchored text style opened inside s)
    (kind : what = style.construct ∨ what = .interpolation)
    (failed : scan inside s = .error ⟨what, opened⟩) : Blamed text ⟨what, opened⟩ := by
  obtain ⟨code, t, opens, scanned⟩ := h
  refine ⟨code, .string kind opens ?_⟩
  intro rest closes
  rw [failed, scan_eq_ok_iff.mpr closes] at scanned
  cases scanned

theorem opening_character (h : opening s = some (.character, rest)) : s = '\'' :: rest := by
  unfold opening stringOpening at h
  grind

/-- What a hole can find unterminated: a character literal or a comment that begins there, or,
at the end of the input, the literal of the hole. -/
theorem holeStep_error (h : holeStep opened s = .error u) :
    (∃ r, s = '\'' :: r ∧ afterCharacter r = none ∧ u = ⟨.character, s⟩) ∨
      (∃ r, s = '/' :: '*' :: r ∧ afterBlockComment r = none ∧ u = ⟨.comment, s⟩) ∨
      u = ⟨.interpolation, opened⟩ := by
  unfold holeStep at h
  grind [opening_character]

theorem scan_of_step_none (outer : List Frame) (h : style.step s = none) :
    scan (.string style opened :: outer) s = .error ⟨style.construct, opened⟩ := by
  rw [scan]
  split <;> simp_all

theorem scan_of_holeStep_error {braces : Nat} (outer : List Frame)
    (h : holeStep opened s = .error u) : scan (.hole braces opened :: outer) s = .error u := by
  rw [scan]
  split <;> simp_all

/-- A scan that fails names a construct that was begun where code is read and that has no end. -/
theorem scan_error (visits : Visits text stack s) (h : scan stack s = .error u) :
    Blamed text u := by
  fun_induction scan stack s with
  | case1 => cases h
  | case2 s style opened outer failed =>
    cases h
    exact visits.anchoredAll.1.blamed (.inl rfl) (scan_of_step_none [] failed)
  | case3 s style opened outer step s' passed ih => exact ih (visits.string passed) h
  | case4 s braces opened outer u' failed =>
    cases h
    have code : CodeIn text s := .inr ⟨braces, opened, outer, visits⟩
    rcases holeStep_error failed with ⟨r, rfl, endless, rfl⟩ | ⟨r, rfl, endless, rfl⟩ | rfl
    · exact ⟨code, .of_afterCharacter endless⟩
    · exact ⟨code, .of_afterBlockComment endless⟩
    · obtain ⟨⟨style, outer, rfl⟩, owner, -⟩ := visits.anchoredAll
      exact owner.blamed (.inr rfl) (scan_of_holeStep_error _ failed)
  | case5 s braces opened outer step s' passed ih => exact ih (visits.hole passed) h

theorem after_error (h : after text = .error u) : Blamed text u := by
  unfold after at h
  split at h
  · cases h
  · rename_i opens
    have head := opening_character opens
    subst head
    split at h
    · rename_i endless
      cases h
      exact ⟨.inl rfl, .of_afterCharacter endless⟩
    · cases h
  · rename_i style rest opens
    split at h
    · rename_i failed
      cases h
      exact scan_error (.start opens) failed
    · cases h

end Literal

end CSharpTidy
