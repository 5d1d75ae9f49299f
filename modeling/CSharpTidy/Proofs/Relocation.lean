import CSharpTidy.Proofs.LineLocality
import CSharpTidy.Proofs.TracedTokens

/- Text that is moved. What is traced up to a mark is traced again wherever the same text stands in
   front of that mark. The tokens of a declaration end with a mark, so they can be moved as a whole
   and are read again as the same tokens, with the same directives between them. -/
namespace CSharpTidy

def Trivia.directive? (t : Trivia) : Option DirectiveKind :=
  match t.kind with
  | .directive kind => some kind
  | _ => none

def Span.directives (span : Span) : List DirectiveKind :=
  span.filterMap Trivia.directive?

def Atom.directive? : Atom → Option DirectiveKind
  | .trivia t => t.directive?
  | .token _ => none

@[simp] theorem Span.directives_append (s t : Span) :
    (s ++ t).directives = s.directives ++ t.directives :=
  List.filterMap_append ..

@[simp] theorem Atom.filterMap_trivia (span : Span) :
    (span.map Atom.trivia).filterMap Atom.directive? = span.directives := by
  rw [List.filterMap_map]
  rfl

/-- What a text is read for: its directives and its lexemes. -/
abbrev Sign := DirectiveKind ⊕ Lexeme

namespace Sign

def directives (signs : List Sign) : List DirectiveKind :=
  signs.filterMap Sum.getLeft?

def lexemes (signs : List Sign) : List Lexeme :=
  signs.filterMap Sum.getRight?

@[simp] theorem directives_append (σ τ : List Sign) :
    directives (σ ++ τ) = directives σ ++ directives τ :=
  List.filterMap_append ..

@[simp] theorem lexemes_append (σ τ : List Sign) : lexemes (σ ++ τ) = lexemes σ ++ lexemes τ :=
  List.filterMap_append ..

end Sign

def Span.signs (span : Span) : List Sign :=
  span.directives.map .inl

@[simp] theorem Span.directives_signs (span : Span) :
    Sign.directives span.signs = span.directives := by
  simp [Sign.directives, signs, List.filterMap_map, Function.comp_def]

@[simp] theorem Span.lexemes_signs (span : Span) : Sign.lexemes span.signs = [] := by
  simp [Sign.lexemes, signs]

/-- A lexeme and the directives in front of it. -/
abbrev Led := List DirectiveKind × Lexeme

namespace Led

def signs (ms : List Led) : List Sign :=
  ms.flatMap fun m => m.1.map .inl ++ [.inr m.2]

def lead (ks : List DirectiveKind) (ms : List Led) : List Led :=
  ms.modifyHead fun m => (ks ++ m.1, m.2)

theorem signs_cons (m : Led) (ms : List Led) :
    signs (m :: ms) = m.1.map .inl ++ .inr m.2 :: signs ms := by
  simp [signs]

@[simp] theorem signs_append (ms ns : List Led) : signs (ms ++ ns) = signs ms ++ signs ns :=
  List.flatMap_append ..

@[simp] theorem lexemes_signs (ms : List Led) : Sign.lexemes (signs ms) = ms.map Prod.snd := by
  induction ms with
  | nil => rfl
  | cons m ms ih =>
    have inner : Sign.lexemes (.inr m.2 :: signs ms) = m.2 :: Sign.lexemes (signs ms) := rfl
    rw [signs_cons, Sign.lexemes_append, inner, ih]
    simp [Sign.lexemes]

variable {ms ns : List Led} {ks js : List DirectiveKind}

theorem signs_lead (nonempty : ms ≠ []) : signs (lead ks ms) = ks.map .inl ++ signs ms := by
  cases ms with
  | nil => exact absurd rfl nonempty
  | cons m ms => simp [signs, lead]

@[simp] theorem lead_nil : lead [] ms = ms := by
  cases ms <;> rfl

@[simp] theorem length_lead : (lead ks ms).length = ms.length :=
  List.length_modifyHead

@[simp] theorem map_snd_lead : (lead ks ms).map Prod.snd = ms.map Prod.snd := by
  cases ms <;> rfl

theorem lead_append (nonempty : ms ≠ []) : lead ks (ms ++ ns) = lead ks ms ++ ns := by
  cases ms with
  | nil => exact absurd rfl nonempty
  | cons m ms => rfl

theorem lead_lead : lead ks (lead js ms) = lead (ks ++ js) ms := by
  cases ms <;> simp [lead]

/-- The signs of a text say which directives stand in front of which lexeme. -/
def ofSigns : List DirectiveKind → List Sign → List Led × List DirectiveKind
  | ks, [] => ([], ks)
  | ks, .inl k :: σ => ofSigns (ks ++ [k]) σ
  | ks, .inr l :: σ => ((ks, l) :: (ofSigns [] σ).1, (ofSigns [] σ).2)

theorem ofSigns_inl (ks js : List DirectiveKind) (σ : List Sign) :
    ofSigns ks (js.map .inl ++ σ) = ofSigns (ks ++ js) σ := by
  induction js generalizing ks with
  | nil => simp
  | cons j js ih => simp [ofSigns, ih]

theorem ofSigns_signs : ofSigns [] (signs ms ++ ks.map .inl) = (ms, ks) := by
  induction ms with
  | nil => simpa [signs, ofSigns] using ofSigns_inl [] ks []
  | cons m ms ih =>
    rw [signs_cons, List.append_assoc, ofSigns_inl, List.cons_append, ofSigns, ih]
    rfl

end Led

namespace Atom

def sign? : Atom → Option Sign
  | .trivia t => t.directive?.map .inl
  | .token l => some (.inr l)

def lexeme? : Atom → Option Lexeme
  | .trivia _ => none
  | .token l => some l

@[simp] theorem filterMap_lexeme (span : Span) : (span.map trivia).filterMap lexeme? = [] := by
  rw [List.filterMap_map]
  exact List.filterMap_eq_nil_iff.mpr fun _ _ => rfl

@[simp] theorem filterMap_sign (span : Span) :
    (span.map trivia).filterMap sign? = span.signs := by
  simp [Span.signs, Span.directives, List.filterMap_map, Function.comp_def, sign?,
    List.map_filterMap]

theorem directives_sign (as : List Atom) :
    Sign.directives (as.filterMap sign?) = as.filterMap directive? := by
  rw [Sign.directives, List.filterMap_filterMap]
  refine List.filterMap_congr fun a _ => ?_
  cases a with
  | token l => rfl
  | trivia t => cases found : t.directive? <;> simp [sign?, directive?, found]

theorem lexemes_sign (as : List Atom) :
    Sign.lexemes (as.filterMap sign?) = as.filterMap lexeme? := by
  rw [Sign.lexemes, List.filterMap_filterMap]
  refine List.filterMap_congr fun a _ => ?_
  cases a with
  | token l => rfl
  | trivia t => cases found : t.directive? <;> simp [sign?, lexeme?, found]

theorem filterMap_counts (as : List Atom) :
    (as.filter counts).filterMap sign? = as.filterMap sign? := by
  rw [List.filterMap_filter]
  refine List.filterMap_congr fun a _ => ?_
  cases a with
  | token l => rfl
  | trivia t =>
    obtain ⟨kind, text⟩ := t
    cases kind <;> rfl

end Atom

/-- Some steps, of which only what `note` says is noted. -/
def Reach {α : Type} (note : Atom → Option α) (r : Reader) (s : List Char) (ns : List α)
    (r' : Reader) (s' : List Char) : Prop :=
  ∃ as, Steps r s as r' s' ∧ as.filterMap note = ns

namespace Reach

variable {α : Type} {note : Atom → Option α} {r r' r'' : Reader} {s s' s'' : List Char}
  {ns ns' : List α}

theorem refl (r : Reader) (s : List Char) : Reach note r s [] r s :=
  ⟨[], .refl r s, rfl⟩

theorem trans (h : Reach note r s ns r' s') (more : Reach note r' s' ns' r'' s'') :
    Reach note r s (ns ++ ns') r'' s'' := by
  obtain ⟨as, front, rfl⟩ := h
  obtain ⟨bs, back, rfl⟩ := more
  exact ⟨as ++ bs, front.trans back, List.filterMap_append ..⟩

theorem of_trace {as : List Atom} (h : Trace r as s r' s') :
    Reach Atom.sign? r s (as.filterMap Atom.sign?) r' s' :=
  ⟨_, h.steps, Atom.filterMap_counts as⟩

end Reach

variable {s : List Char} {z : Char}

theorem Piece.lexeme_cons {a : Char} {text rest : List Char} {kind : LexemeKind}
    (ahead : text ++ rest = a :: s) (found : lexeme a s = .ok ⟨kind, text, rest⟩) :
    ∃ t, text = a :: t ∧ s = t ++ rest := by
  have shorter := lexeme_length found
  cases text with
  | nil =>
    rw [List.nil_append] at ahead
    rw [ahead] at shorter
    exact absurd shorter (Nat.lt_irrefl _)
  | cons b t =>
    obtain ⟨rfl, rfl⟩ := List.cons.inj ahead
    exact ⟨t, rfl, rfl⟩

namespace Trace

variable {r r' : Reader} {as : List Atom} {z : Char} {u x s s' : List Char}

theorem of_single {a : Atom} (h : Trace r [a] s r' s') : a.Passed s' r r' ∧ s = a.text ++ s' := by
  cases h with
  | cons first whole more =>
    cases more with
    | nil => exact ⟨first, whole⟩

theorem exists_break (h : Trace r as s r' s') (whole : s = u ++ z :: x) (left : s' = z :: x)
    (inline : isLineBreak z = false) (dead : r.conditional.isActive = false)
    (live : r'.conditional.isActive) : ∃ v b w, u = v ++ b :: w ∧ isLineBreak b := by
  induction h generalizing u with
  | nil =>
    rw [dead] at live
    cases live
  | @cons r r₁ r' a as s s₁ s' first front more ih =>
    obtain ⟨w, rfl⟩ : ∃ w, s₁ = w ++ z :: x := ⟨_, left ▸ more.text_eq⟩
    have split : u = a.text ++ w := by
      rw [front, ← List.append_assoc] at whole
      exact (List.append_cancel_right whole).symm
    have later : r₁.conditional.isActive = false → ∃ v b w, u = v ++ b :: w ∧ isLineBreak b := by
      intro dead
      obtain ⟨v, b, w', rfl, breaks⟩ := ih rfl left dead live
      exact ⟨a.text ++ v, b, w', by rw [split, List.append_assoc], breaks⟩
    cases first with
    | space => exact later dead
    | lineEnd => exact later dead
    | comment active =>
      rw [dead] at active
      cases active
    | directive kind hash unbroken ends =>
      cases w with
      | nil =>
        rw [ends z rfl] at inline
        cases inline
      | cons b w => exact ⟨_, b, w, split, ends b rfl⟩
    | disabled => exact later dead
    | token active =>
      rw [dead] at active
      cases active

/-- What stands behind a mark plays no part in front of it. -/
theorem relocate (h : Trace r as s r' s') (mark : Mark z) (inline : isLineBreak z = false)
    (whole : s = u ++ z :: x) (left : s' = z :: x) (live : r'.conditional.isActive)
    (y : List Char) : Trace r as (u ++ z :: y) r' (z :: y) := by
  induction h generalizing u with
  | nil r s =>
    obtain rfl : u = [] := by simpa [left] using whole.symm
    exact .nil r _
  | @cons r r₁ r' a as s s₁ s' first front more ih =>
    obtain ⟨w, rfl⟩ : ∃ w, s₁ = w ++ z :: x := ⟨_, left ▸ more.text_eq⟩
    obtain rfl : u = a.text ++ w := by
      rw [front, ← List.append_assoc] at whole
      exact (List.append_cancel_right whole).symm
    have head : (w ++ z :: y).head? = (w ++ z :: x).head? := by cases w <;> rfl
    have first' : a.Passed (w ++ z :: y) r r₁ := by
      cases first with
      | space kind nonempty spaces => exact .space kind nonempty spaces
      | lineEnd kind breaks => exact .lineEnd kind breaks
      | comment active found =>
        refine .comment active ?_
        rw [← List.append_assoc] at found ⊢
        exact Piece.comment?_local found rfl y
      | directive kind hash unbroken ends opens counts applied =>
        exact .directive kind hash unbroken (head ▸ ends) opens counts applied
      | @disabled t kind nonempty inactive starts passed =>
        refine .disabled kind nonempty inactive starts ?_
        -- the dead branch ends in front of the line break of a directive
        obtain ⟨v, b, w, rfl, breaks⟩ := more.exists_break rfl left inline inactive live
        refine Piece.afterDisabled_moves (s := t.text.toList ++ (v ++ b :: w ++ z :: x)) ?_
        rw [passed]
        exact .inr ⟨b, t.text.toList ++ v, v, w ++ z :: x, w ++ z :: y, breaks, by simp, by simp,
          by simp, by simp⟩
      | @token l b s active ahead solid unhashed comment found =>
        obtain ⟨t, text, rfl⟩ := Piece.lexeme_cons ahead found
        rw [← List.append_assoc] at found comment
        refine .token active ?_ solid unhashed ?_ (Piece.lexeme_local mark found rfl y)
        · rw [text, List.cons_append, List.append_assoc]
        · exact Piece.comment?_none_local (u := b :: (t ++ w)) mark.toStops comment y
    rw [List.append_assoc]
    exact .cons first' rfl (ih rfl left live)

/-- A lexeme that starts no directive may stand anywhere on its line. -/
theorem restart {l : Lexeme} (h : Trace r (.token l :: as) s r' s')
    (unhashed : l.text.toList.head? ≠ some '#') (p : Place) :
    Trace ⟨p, r.conditional⟩ (.token l :: as) s r' s' := by
  cases h with
  | cons first whole more =>
    refine .cons ?_ whole more
    cases first with
    | @token _ b s active ahead solid _ comment found =>
      refine .token active ahead solid (fun hash => ?_) comment found
      obtain ⟨t, text, -⟩ := Piece.lexeme_cons ahead found
      exact absurd (by rw [text, hash]; rfl) unhashed

end Trace

def isCloser (z : Char) : Bool :=
  z == ';' || z == '\x7b' || z == '\x7d' || z == ']'

theorem mark_of_isCloser (h : isCloser z) : Mark z := by
  simp only [isCloser, Bool.or_eq_true, beq_iff_eq] at h
  rcases h with ((rfl | rfl) | rfl) | rfl <;>
    exact ⟨⟨by decide, by decide, by decide, by decide, by decide⟩, by decide, by decide⟩

theorem solid_of_isCloser (h : isCloser z) :
    isVoid z = false ∧ isLineBreak z = false ∧ z ≠ '#' := by
  simp only [isCloser, Bool.or_eq_true, beq_iff_eq] at h
  rcases h with ((rfl | rfl) | rfl) | rfl <;> exact ⟨by decide, by decide, by decide⟩

theorem Piece.lexeme_mark (mark : Mark z) (quote : z ≠ '\'') (y : List Char) :
    lexeme z y = .ok ⟨.punct, [z], y⟩ := by
  have opening : Literal.opening (z :: y) = none := by
    rw [Literal.opening_of_sigils quote mark.quote]
    · simp [mark.sigil]
    · rintro rfl
      exact absurd mark.sigil (by decide)
  have literal : Literal.after (z :: y) = .ok none := by simp [Literal.after, opening]
  have length : punctLength (z :: y) = 1 := by
    have nonempty : operators.all (fun op => !op.toList.isEmpty) := by decide
    have none : operators.find? (fun op => op.toList.isPrefixOf (z :: y)) = none := by
      rw [List.find?_eq_none]
      intro op mem front
      have some := List.all_eq_true.mp nonempty op mem
      have apart := mark.operator op mem
      cases text : op.toList with
      | nil => simp [text] at some
      | cons c t =>
        rw [text] at front apart
        simp only [List.isPrefixOf_cons_cons, Bool.and_eq_true, beq_iff_eq] at front
        exact apart (by simp [front.1])
    simp only [punctLength, none]
  have at_ : z ≠ '@' := by
    rintro rfl
    exact absurd mark.sigil (by decide)
  simp [lexeme, literal, plain, mark.wordStart, mark.digit, mark.dot, at_, length]

theorem passed_of_isCloser (h : isCloser z) {conditional : Conditional}
    (active : conditional.isActive) (p : Place) (y : List Char) :
    Atom.Passed y ⟨p, conditional⟩ (.token ⟨.punct, String.ofList [z]⟩) ⟨.inside, conditional⟩ := by
  obtain ⟨solid, -, unhashed⟩ := solid_of_isCloser h
  refine .token active (by rw [String.toList_ofList]; rfl) solid
    (fun hash => absurd hash unhashed) ?_ ?_
  · exact Piece.comment?_none_local (u := []) (x := []) (mark_of_isCloser h).toStops
      (by rw [Piece.comment?_eq_none_iff]; simp) y
  · rw [String.toList_ofList]
    refine Piece.lexeme_mark (mark_of_isCloser h) ?_ y
    rintro rfl
    exact absurd h (by decide)

/-- A text that is read in the same way wherever it stands, with these notes taken of it. -/
def Passes {α : Type} (note : Atom → Option α) (conditional : Conditional) (text : List Char)
    (ns : List α) (conditional' : Conditional) : Prop :=
  ∀ p y, Reach note ⟨p, conditional⟩ (text ++ y) ns ⟨.inside, conditional'⟩ y

namespace PlacedToken

/-- From the first token to the last, without the trivia around them. -/
def stretch : List PlacedToken → List Atom
  | [] => []
  | [t] => [.token t.toLexeme]
  | t :: next :: rest =>
      .token t.toLexeme :: (t.trailing.map .trivia ++ next.leading.map .trivia ++
        stretch (next :: rest))

def between (own : List PlacedToken) : List DirectiveKind :=
  (stretch own).filterMap Atom.directive?

def signsOf (own : List PlacedToken) : List Sign :=
  (stretch own).filterMap Atom.sign?

/-- The lexemes of the tokens with the directives between them. -/
def ledOf : List PlacedToken → List Led
  | [] => []
  | [t] => [([], t.toLexeme)]
  | t :: next :: rest => ([], t.toLexeme) ::
      Led.lead (t.trailing.directives ++ next.leading.directives) (ledOf (next :: rest))

variable {own : List PlacedToken} {s' : List Char} {r r' : Reader}

theorem ledOf_first (nonempty : own ≠ []) : ∃ l ms, ledOf own = ([], l) :: ms := by
  fun_induction ledOf own with
  | case1 => exact absurd rfl nonempty
  | case2 t => exact ⟨_, _, rfl⟩
  | case3 t next rest => exact ⟨_, _, rfl⟩

theorem length_ledOf (own : List PlacedToken) : (ledOf own).length = own.length := by
  fun_induction ledOf own with
  | case1 => rfl
  | case2 t => rfl
  | case3 t next rest ih => simpa [Led.lead] using ih

theorem signs_ledOf (own : List PlacedToken) : Led.signs (ledOf own) = signsOf own := by
  fun_induction ledOf own with
  | case1 => rfl
  | case2 t => rfl
  | case3 t next rest ih =>
    obtain ⟨l, ms, first⟩ := ledOf_first (List.cons_ne_nil next rest)
    have inner : signsOf (t :: next :: rest) = .inr t.toLexeme ::
        (t.trailing.signs ++ next.leading.signs ++ signsOf (next :: rest)) := by
      simp only [signsOf, stretch, List.filterMap_cons, Atom.sign?, List.filterMap_append,
        Atom.filterMap_sign]
    rw [inner, Led.signs_cons, Led.signs_lead (by simp [first]), ih]
    simp [Span.signs]

@[simp] theorem directives_signsOf (own : List PlacedToken) :
    Sign.directives (signsOf own) = between own :=
  Atom.directives_sign (stretch own)

@[simp] theorem lexemes_signsOf (own : List PlacedToken) :
    Sign.lexemes (signsOf own) = own.map (·.toLexeme) := by
  rw [signsOf, Atom.lexemes_sign]
  fun_induction stretch own with
  | case1 => rfl
  | case2 t => rfl
  | case3 t next rest ih =>
    simp only [List.filterMap_cons, List.filterMap_append, Atom.filterMap_lexeme, ih]
    rfl

theorem text_trivia (span : Span) :
    (span.map Atom.trivia).flatMap Atom.text = (Span.text span).toList := by
  induction span with
  | nil => rfl
  | cons t span ih =>
    rw [List.map_cons, List.flatMap_cons, ih, Span.text_cons, String.toList_append]
    rfl

theorem text_stretch (own : List PlacedToken) :
    (stretch own).flatMap Atom.text = (join own).toList := by
  fun_induction stretch own with
  | case1 => rfl
  | case2 t => simp [join, Atom.text]
  | case3 t next rest ih =>
    simp only [List.flatMap_cons, List.flatMap_append, text_trivia, ih, join, String.toList_append,
      List.append_assoc]
    rfl

theorem atoms_eq (nonempty : own ≠ []) :
    own.flatMap (fun t => t.toToken.atoms) = (leadingOf own).map .trivia ++ stretch own ++
      (trailingOf own).map .trivia := by
  fun_induction stretch own with
  | case1 => exact absurd rfl nonempty
  | case2 t => simp [Token.atoms, leadingOf, trailingOf]
  | case3 t next rest ih =>
    rw [List.flatMap_cons, ih (List.cons_ne_nil next rest)]
    simp [Token.atoms, leadingOf, trailingOf]

theorem stretch_concat (own : List PlacedToken) (t : PlacedToken) :
    ∃ front, stretch (own ++ [t]) = front ++ [.token t.toLexeme] := by
  fun_induction stretch own with
  | case1 => exact ⟨[], rfl⟩
  | case2 a => exact ⟨_, (List.cons_append ..).symm⟩
  | case3 a next rest ih =>
    obtain ⟨front, eq⟩ := ih
    refine ⟨.token a.toLexeme :: (a.trailing.map .trivia ++ next.leading.map .trivia ++ front), ?_⟩
    simp only [List.cons_append] at eq
    simp only [List.cons_append, stretch, eq, List.append_assoc]

theorem stretch_cons (t : PlacedToken) (own : List PlacedToken) :
    ∃ rest, stretch (t :: own) = .token t.toLexeme :: rest := by
  cases own with
  | nil => exact ⟨[], rfl⟩
  | cons next own => exact ⟨_, rfl⟩

def Closes (own : List PlacedToken) : Prop :=
  ∃ t z, own.getLast? = some t ∧ t.text = String.ofList [z] ∧ isCloser z

theorem ne_nil_of_closes (h : Closes own) : own ≠ [] := by
  rintro rfl
  obtain ⟨t, z, last, -⟩ := h
  cases last

def Unhashed (own : List PlacedToken) : Prop :=
  ∀ t, own.head? = some t → t.text.toList.head? ≠ some '#'

theorem stretch_traced (h : Trace r (stretch own) s r' s') (closes : Closes own)
    (unhashed : Unhashed own) (p : Place) (y : List Char) :
 Trace ⟨p, r.conditional⟩ (stretch own)
      ((join own).toList ++ y) ⟨.inside, r'.conditional⟩ y := by
  obtain ⟨t, z, last, text, closer⟩ := closes
  obtain ⟨-, inline, sharp⟩ := solid_of_isCloser closer
  obtain ⟨init, rfl⟩ := List.getLast?_eq_some_iff.mp last
  obtain ⟨front, whole⟩ := stretch_concat init t
  have joined := text_stretch (init ++ [t])
  rw [whole] at h joined
  obtain ⟨r₁, s₁, before, closing⟩ := h.split
  obtain ⟨passed, ahead⟩ := closing.of_single
  rw [Atom.text, text, String.toList_ofList] at ahead
  rw [List.flatMap_append, List.flatMap_singleton, Atom.text, text, String.toList_ofList] at joined
  have live : r₁.conditional.isActive := by
    cases passed with
    | token active => exact active
  have state : r'.conditional = r₁.conditional := by
    cases passed with
    | token => rfl
  have lexeme : t.toLexeme = ⟨.punct, String.ofList [z]⟩ := by
    cases passed with
    | @token _ a s active front solid unhashed comment found =>
      rw [text, String.toList_ofList] at front found
      obtain ⟨rfl, rfl⟩ := List.cons.inj front
      have quote : z ≠ '\'' := by
        rintro rfl
        exact absurd closer (by decide)
      rw [Piece.lexeme_mark (mark_of_isCloser closer) quote] at found
      obtain ⟨kind, -⟩ := Piece.mk.inj (Except.ok.inj found)
      exact congrArg₂ Lexeme.mk kind.symm text
  have last : Trace r₁ [.token ⟨.punct, String.ofList [z]⟩] (z :: y) ⟨.inside, r₁.conditional⟩ y :=
    .cons (passed_of_isCloser closer live r₁.place y) (by simp [Atom.text]) (.nil _ _)
  have moved := (before.relocate (mark_of_isCloser closer) inline (ahead ▸ before.text_eq) ahead
    live y).append last
  -- the first token starts at another place
  have restarted : Trace ⟨p, r.conditional⟩ (front ++ [.token ⟨.punct, String.ofList [z]⟩])
      (front.flatMap Atom.text ++ z :: y) ⟨.inside, r₁.conditional⟩ y := by
    cases front with
    | nil => exact moved.restart (by simpa using sharp) p
    | cons a front =>
      obtain ⟨first, rest, cons⟩ := List.exists_cons_of_ne_nil (List.concat_ne_nil t init)
      obtain ⟨more, starts⟩ := stretch_cons first rest
      rw [← cons, whole, List.cons_append, List.cons.injEq] at starts
      obtain ⟨rfl, -⟩ := starts
      exact moved.restart (unhashed first (by rw [cons]; rfl)) p
  rw [state, ← joined, List.append_assoc, whole, lexeme]
  exact restarted

theorem stretch_passes (h : Trace r (stretch own) s r' s') (closes : Closes own)
    (unhashed : Unhashed own) :
    Passes Atom.sign? r.conditional (join own).toList (signsOf own) r'.conditional :=
  fun p y => .of_trace (stretch_traced h closes unhashed p y)

end PlacedToken

end CSharpTidy
