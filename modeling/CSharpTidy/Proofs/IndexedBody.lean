import CSharpTidy.Proofs.IndexedTree

/- Bodies built by indices. What has been added to a block is what the entries of the outline so far
   cut off the tokens; a step adds one declaration to the block and one entry to the outline. -/
namespace CSharpTidy.Indexed

open Checked Outline PlacedToken

variable {s : TokenStream} {start pos next : Nat} {openTrailing : Span} {current : Partial}
  {block : Block Decl}

theorem buildAll_snoc (es : List Entry) (e : Entry) (ts : List PlacedToken) :
    Entry.buildAll (es ++ [e]) ts =
      ((Entry.buildAll es ts).1 ++ [(e.build (Entry.buildAll es ts).2).1],
        (e.build (Entry.buildAll es ts).2).2) := by
  induction es generalizing ts with
  | nil => rfl
  | cons first es ih => simp only [List.cons_append, Entry.buildAll, ih]

theorem buildAll_isEmpty (es : List Entry) (ts : List PlacedToken) :
    (Entry.buildAll es ts).1.isEmpty = es.isEmpty := by
  cases es <;> rfl

/-- The block holds what the entries read so far cut off the tokens from `start` to `pos`. -/
structure Built (s : TokenStream) (start : Nat) (openTrailing : Span) (current : Partial)
    (block : Block Decl) (pos : Nat) : Prop where
  unclosed : current.body.closing = 0
  built : current.body.build openTrailing ((place s.tokens).drop start) =
    ⟨block, [], (place s.tokens).drop pos⟩

def put (block : Block Decl) (d : Decl) : Role → Block Decl
  | .imported => { block with imports := block.imports ++ [d] }
  | .attribute => { block with attributes := block.attributes ++ [d] }
  | .member => { block with members := block.members ++ [d] }

namespace Built

theorem empty (s : TokenStream) (start : Nat) (scope : Scope) (braced : Bool)
    (openTrailing : Span) :
    Built s start openTrailing (.empty scope braced) { braced := braced, openTrailing := openTrailing }
      start :=
  ⟨rfl, rfl⟩

theorem braced_eq (h : Built s start openTrailing current block pos) :
    block.braced = current.body.braced := by
  have := Body.build_braced current.body openTrailing ((place s.tokens).drop start)
  rwa [h.built] at this

theorem members_isEmpty (h : Built s start openTrailing current block pos) :
    block.members.isEmpty = current.body.members.isEmpty := by
  obtain ⟨scope, braced, imports, attributes, members, closing⟩ := current
  have := congrArg (fun c => c.block.members) h.built
  simp only [Body.build] at this
  rw [← this, buildAll_isEmpty]

theorem attributes_isEmpty (h : Built s start openTrailing current block pos) :
    block.attributes.isEmpty = current.body.attributes.isEmpty := by
  obtain ⟨scope, braced, imports, attributes, members, closing⟩ := current
  have := congrArg (fun c => c.block.attributes) h.built
  simp only [Body.build] at this
  rw [← this, buildAll_isEmpty]

theorem read_eq (h : Built s start openTrailing current block pos) (ls : List Lexeme) :
    current.read ls =
      if current.scope != .typeBody && block.members.isEmpty && block.attributes.isEmpty &&
          startsImport ls then
        readImport ls
      else if current.scope != .typeBody && block.members.isEmpty &&
          current.scope == .compilationUnit && startsGlobalAttribute ls then
        readGlobalAttribute ls
      else readMember current.scope ls := by
  rw [h.members_isEmpty, h.attributes_isEmpty]
  rfl

variable {e : Entry} {d : Decl}

theorem add (role : Role) (h : Built s start openTrailing current block pos)
    (awaits : role.Awaits current)
    (built : e.build ((place s.tokens).drop pos) = (d, (place s.tokens).drop next)) :
    Built s start openTrailing (role.add current [e]) (put block d role) next := by
  obtain ⟨scope, braced, imports, attributes, members, closing⟩ := current
  obtain ⟨unclosed, eq⟩ := h
  simp only at unclosed
  subst unclosed
  cases role
  · obtain ⟨none, none'⟩ := awaits
    cases none
    cases none'
    simp only [Body.build, Entry.buildAll, List.drop_zero, Cut.mk.injEq] at eq
    obtain ⟨rfl, -, rest⟩ := eq
    refine ⟨rfl, ?_⟩
    simp only [Role.add, Body.build, Entry.buildAll, buildAll_snoc, rest, built, List.take_zero,
      List.drop_zero]
    rfl
  · cases awaits
    simp only [Body.build, Entry.buildAll, List.drop_zero, Cut.mk.injEq] at eq
    obtain ⟨rfl, -, rest⟩ := eq
    refine ⟨rfl, ?_⟩
    simp only [Role.add, Body.build, Entry.buildAll, buildAll_snoc, rest, built, List.take_zero,
      List.drop_zero]
    rfl
  · simp only [Body.build, List.drop_zero, Cut.mk.injEq] at eq
    obtain ⟨rfl, -, rest⟩ := eq
    refine ⟨rfl, ?_⟩
    simp only [Role.add, Body.build, buildAll_snoc, rest, built, List.take_zero, List.drop_zero]
    rfl

end Built

/-- A declaration read by indices is what reading by suffixes adds to the body that is open. -/
inductive Agrees (s : TokenStream) (current : Partial) (role : Role) (start : Nat) :
    Check (Decl × Nat) → Prop
  | fault {f : Fault} (read : ∀ outer, Outline.read current outer (ahead s start) = .error f) :
      Agrees s current role start (.error (.fault (f.toError s)))
  | decl {e : Entry} {d : Decl} {next : Nat} (awaits : role.Awaits current) (order : start < next)
      (inside : next ≤ s.tokens.length)
      (built : e.build ((place s.tokens).drop start) = (d, (place s.tokens).drop next))
      (read : ∀ outer, Outline.read current outer (ahead s start) =
        Outline.read (role.add current [e]) outer (ahead s next)) :
      Agrees s current role start (.ok (d, next))

def Continues (s : TokenStream) (pos : Nat) : Prop :=
  ∃ t, s.tokens[pos]? = some t ∧ t.is "\x7d" = false

theorem Continues.read (h : Continues s pos) (current : Partial) (outer : List (Entry × Partial)) :
    Outline.read current outer (ahead s pos) =
      (current.read (ahead s pos)).bind fun (item, after) =>
        Outline.read (item.enter current outer).1 (item.enter current outer).2 after := by
  obtain ⟨t, here, unclosed⟩ := h
  rw [ahead_of_some here]
  exact read_unclosed current outer unclosed _

variable {run : Check (Decl × Nat)} {text : String} {role : Role}

theorem ItemAgrees.agrees (h : ItemAgrees s pos role run (current.read (ahead s pos)))
    (continues : Continues s pos) : Agrees s current role pos run := by
  generalize scan : current.read (ahead s pos) = item at h
  cases h with
  | fault f =>
    refine .fault fun outer => ?_
    rw [continues.read, scan]
    rfl
  | decl order inside built =>
    have awaits := (Partial.read_known scan).2
    refine .decl (by cases role <;> exact awaits) order inside built fun outer => ?_
    rw [continues.read, scan]
    cases role <;> rfl

/-- A block is complete: at the brace that closes it or, without braces, at the end of the file. -/
def Complete (s : TokenStream) (block : Block Decl) (next : Nat) : Prop :=
  if block.braced then ∃ t, s.tokens[next]? = some t ∧ t.is "\x7d" else next = s.tokens.length

/-- A block read by indices is what reading by suffixes makes of the body that is open. -/
inductive BodyAgrees (s : TokenStream) (start : Nat) (openTrailing : Span) (current : Partial)
    (pos : Nat) : Check (Block Decl × Nat) → Prop
  | fault {f : Fault} (read : ∀ outer, Outline.read current outer (ahead s pos) = .error f) :
      BodyAgrees s start openTrailing current pos (.error (.fault (f.toError s)))
  | block {current' : Partial} {block : Block Decl} {next : Nat}
      (built : Built s start openTrailing current' block next)
      (braced : block.braced = current.body.braced) (order : pos ≤ next)
      (complete : Complete s block next)
      (read : ∀ outer, Outline.read current outer (ahead s pos) =
        Outline.read current' outer (ahead s next)) :
      BodyAgrees s start openTrailing current pos (.ok (block, next))

theorem Agrees.andThen {go : Decl × Nat → Check (Block Decl × Nat)}
    (first : Agrees s current role pos run) (here : Built s start openTrailing current block pos)
    (rest : ∀ e d next, pos < next → next ≤ s.tokens.length →
      Built s start openTrailing (role.add current [e]) (put block d role) next →
      BodyAgrees s start openTrailing (role.add current [e]) next (go (d, next))) :
    BodyAgrees s start openTrailing current pos
      (do
        let read ← run
        onwardTo s pos read.2 fun _ => go read) := by
  cases first with
  | fault read => exact .fault read
  | @decl e d next awaits order inside built read =>
    rw [ok_bind, onwardTo, dif_pos ⟨order, inside⟩]
    have further := rest e d next order inside (here.add role awaits built)
    generalize go (d, next) = run at further
    cases further with
    | fault more => exact .fault fun outer => (read outer).trans (more outer)
    | block built same after complete more =>
      refine .block built (same.trans ?_) (by omega) complete
        fun outer => (read outer).trans (more outer)
      cases role <;> rfl

theorem build_with_body (kind : DeclKind) (visibility : Visibility) (key : DeclKey) (size : Nat)
    (body : Body Entry) (ts : List PlacedToken) :
    (Entry.mk kind visibility key size (some body)).build ts =
      ({ ((Entry.mk kind visibility key size none).build ts).1 with
          block := some (body.build (trailingOf (ts.take size)) (ts.drop size)).block,
          trailing := (body.build (trailingOf (ts.take size)) (ts.drop size)).trailing },
        (body.build (trailingOf (ts.take size)) (ts.drop size)).rest) := rfl

theorem Built.close (h : Built s start openTrailing current block pos) (size : Nat) :
    Body.build { current.body with closing := size } openTrailing ((place s.tokens).drop start) =
      ⟨{ block with
          closeLeading := leadingOf (((place s.tokens).drop pos).take size),
          close := PlacedToken.join (((place s.tokens).drop pos).take size) },
        trailingOf (((place s.tokens).drop pos).take size),
        (place s.tokens).drop (pos + size)⟩ := by
  obtain ⟨scope, braced, imports, attributes, members, closing⟩ := current
  obtain ⟨unclosed, eq⟩ := h
  simp only at unclosed
  subst unclosed
  simp only [Body.build, List.drop_zero, Cut.mk.injEq] at eq
  obtain ⟨rfl, -, rest⟩ := eq
  simp only [Body.build, rest, List.drop_drop]

theorem closeContainer_eq (closes : pos < s.tokens.length) (decl : Decl) (block : Block Decl) :
    closeContainer s decl block pos =
      .ok ({ decl with
              block := some { block with
                closeLeading := leadingOf
                  (((place s.tokens).drop pos).take (closingSize (ahead s (pos + 1)))),
                close := PlacedToken.join
                  (((place s.tokens).drop pos).take (closingSize (ahead s (pos + 1)))) },
              trailing := trailingOf
                (((place s.tokens).drop pos).take (closingSize (ahead s (pos + 1)))) },
            pos + closingSize (ahead s (pos + 1))) ∧
      pos + closingSize (ahead s (pos + 1)) ≤ s.tokens.length := by
  obtain ⟨last, eq, size, order, inside⟩ : ∃ last,
      last = (if Lexeme.startsWith (ahead s (pos + 1)) ";" then pos + 1 else pos) ∧
      closingSize (ahead s (pos + 1)) = last + 1 - pos ∧ pos ≤ last ∧ last < s.tokens.length := by
    refine ⟨_, rfl, ?_⟩
    rw [closingSize]
    split
    · rename_i semicolon
      exact ⟨by omega, by omega, lt_of_startsWith semicolon⟩
    · exact ⟨by omega, by omega, closes⟩
  obtain ⟨first, isFirst⟩ := placed_of_lt (s := s) (i := pos) closes
  obtain ⟨final, isLast⟩ := placed_of_lt (s := s) (i := last) inside
  refine ⟨?_, by omega⟩
  rw [closeContainer, cellIs_eq, ok_bind, ← eq, leadingAt_eq (token_of_placed isFirst), ok_bind,
    join_eq order inside, ok_bind, trailingAt_eq (token_of_placed isLast), ok_bind, size,
    ← List.extract_eq_take_drop, leadingOf_extract isFirst (by omega),
    trailingOf_extract isLast order, show pos + (last + 1 - pos) = last + 1 by omega]
  rfl

def BodiesAgree (s : TokenStream) (start : Nat) : Prop :=
  ∀ (first : Nat) (openTrailing : Span) (current : Partial) (block : Block Decl) (pos : Nat),
    start < pos → pos ≤ s.tokens.length → Built s first openTrailing current block pos →
    BodyAgrees s first openTrailing current pos (blockBody s current.scope block pos)

theorem closingSize_pos (rest : List Lexeme) : 0 < closingSize rest := by
  rw [closingSize]
  split <;> omega

section Containers

variable {opened : Nat} {p : PlacedToken} {kind : DeclKind} {visibility : Visibility}
  {key : DeclKey} {scope : Scope}

theorem build_container_of_cut (order : start ≤ opened)
    (opener : (place s.tokens)[opened]? = some p) {body : Body Entry} {cut : Cut}
    (eq : body.build p.trailing ((place s.tokens).drop (opened + 1)) = cut) :
    (Entry.mk kind visibility key (opened + 1 - start) (some body)).build
        ((place s.tokens).drop start) =
      ({ ((Entry.mk kind visibility key (opened + 1 - start) none).build
            ((place s.tokens).drop start)).1 with
          block := some cut.block, trailing := cut.trailing }, cut.rest) := by
  have behind : ((place s.tokens).drop start).drop (opened + 1 - start) =
      (place s.tokens).drop (opened + 1) := by
    rw [List.drop_drop]
    congr 1
    omega
  rw [build_with_body, ← List.extract_eq_take_drop, trailingOf_extract opener order, behind, eq]

theorem braced_agrees (inner : BodiesAgree s start) (order : start ≤ opened)
    (inside : opened < s.tokens.length) (opener : (place s.tokens)[opened]? = some p)
    (opens : current.read (ahead s start) =
      .ok (.container ⟨kind, visibility, key, opened + 1 - start, none⟩ scope true,
        ahead s (opened + 1))) :
    Agrees s current .member start (do
      let read ← blockBody s scope { braced := true, openTrailing := p.trailing } (opened + 1)
      closeContainer s ((Entry.mk kind visibility key (opened + 1 - start) none).build
        ((place s.tokens).drop start)).1 read.1 read.2) := by
  have body := inner (opened + 1) p.trailing (.empty scope true) _ (opened + 1) (by omega) inside
    (.empty s (opened + 1) scope true p.trailing)
  change BodyAgrees _ _ _ _ _ (blockBody s scope _ _) at body
  generalize blockBody s scope _ _ = run at body ⊢
  cases body with
  | fault read => exact .fault fun outer => (read_container opens).trans (read _)
  | @block current' block next built same after complete read =>
    have braced : block.braced = true := same
    rw [Complete, if_pos braced] at complete
    obtain ⟨t, here, closes⟩ := complete
    obtain ⟨closed, last⟩ := closeContainer_eq (List.getElem?_eq_some_iff.mp here).1
      ((Entry.mk kind visibility key (opened + 1 - start) none).build
        ((place s.tokens).drop start)).1 block
    have positive := closingSize_pos (ahead s (next + 1))
    have behind : (ahead s (next + 1)).drop (closingSize (ahead s (next + 1)) - 1) =
        ahead s (next + closingSize (ahead s (next + 1))) := by
      rw [drop_ahead]
      congr 1
      omega
    rw [ok_bind, closed]
    refine .decl trivial (by omega) last (build_container_of_cut order opener (built.close _))
      fun outer => ?_
    rw [read_container opens, read, ahead_of_some here,
      read_close (built.braced_eq ▸ braced) closes, behind]
    rfl

theorem fileScoped_agrees (inner : BodiesAgree s start) (order : start ≤ opened)
    (inside : opened < s.tokens.length) (opener : (place s.tokens)[opened]? = some p)
    (opens : current.read (ahead s start) =
      .ok (.container ⟨kind, visibility, key, opened + 1 - start, none⟩ scope false,
        ahead s (opened + 1))) :
    Agrees s current .member start (do
      let read ← blockBody s scope { openTrailing := p.trailing } (opened + 1)
      return ({ ((Entry.mk kind visibility key (opened + 1 - start) none).build
        ((place s.tokens).drop start)).1 with block := some read.1, trailing := [] }, read.2)) := by
  have body := inner (opened + 1) p.trailing (.empty scope false) _ (opened + 1) (by omega) inside
    (.empty s (opened + 1) scope false p.trailing)
  change BodyAgrees _ _ _ _ _ (blockBody s scope _ _) at body
  generalize blockBody s scope _ _ = run at body ⊢
  cases body with
  | fault read => exact .fault fun outer => (read_container opens).trans (read _)
  | @block current' block next built same after complete read =>
    have unbraced : block.braced = false := same
    rw [Complete, if_neg (by rw [unbraced]; exact Bool.false_ne_true)] at complete
    have ended : ahead s next = [] := by
      rw [← List.length_eq_zero_iff, length_ahead, complete, Nat.sub_self]
    refine .decl trivial (by omega) (by omega) (build_container_of_cut order opener built.built)
      fun outer => ?_
    rw [read_container opens, read, ended, read_ending outer (built.braced_eq ▸ unbraced)]
    rfl

theorem container_agrees {head : Nat} {t : Token} {kind : ContainerKind}
    (inner : BodiesAgree s start) (continues : Continues s start) (order : start ≤ head)
    (keyword : s.tokens[head]? = some t) (noRecord : t.is "record" = false)
    (reads : current.read (ahead s start) =
      readContainer kind visibility (ahead s start) (ahead s head)) :
    Agrees s current .member start (container s kind visibility start head) := by
  have ends := headerEnd_ends s 0 head
  rw [container]
  rw [readContainer] at reads
  cases scan : Outline.headerEnd 0 (ahead s head) with
  | error f =>
    rw [scan] at ends reads
    rw [ends]
    refine .fault fun outer => ?_
    rw [continues.read, reads]
    rfl
  | ok found =>
    obtain ⟨l, rest⟩ := found
    rw [scan] at ends
    obtain ⟨opened, opener, ran, after, opens, rfl, rfl, isBrace, isSemicolon⟩ := ends
    have inside := (List.getElem?_eq_some_iff.mp opens).1
    obtain ⟨p, placed⟩ := placed_of_lt inside
    have token := token_of_placed placed
    cases token.symm.trans opens
    rw [scan] at reads
    simp only [tail_ahead, extent_ahead (show start ≤ opened + 1 by omega) inside] at reads
    rw [ran, ok_bind, declaredKey_eq keyword, noRecord, if_neg Bool.false_ne_true, ok_bind,
      declFrom_eq (by omega) inside, ok_bind, trailingAt_eq token, ok_bind, cellIs_eq,
      startsWith_ahead token, ok_bind, isSemicolon]
    have onward : start < opened + 1 ∧ opened + 1 ≤ s.tokens.length := ⟨by omega, inside⟩
    cases brace : p.text == "\x7b" with
    | true =>
      rw [if_pos brace] at reads
      simp only [Bool.not_true, Bool.false_eq_true, if_false, onwardTo, dif_pos onward]
      exact braced_agrees inner (by omega) inside placed reads
    | false =>
      rw [if_neg (by rw [brace]; exact Bool.false_ne_true)] at reads
      simp only [Bool.not_false, if_true]
      split at reads
      · rename_i isNamespace
        simp only [isNamespace, if_true, onwardTo, dif_pos onward] at reads ⊢
        exact fileScoped_agrees inner (by omega) inside placed reads
      · rename_i noNamespace
        rw [if_neg noNamespace]
        refine .decl trivial (by omega) inside (build_own rfl rfl (by omega)) fun outer => ?_
        rw [continues.read, reads]
        rfl

end Containers

theorem token_of_startsWith (h : Lexeme.startsWith (ahead s pos) text) :
    ∃ t, s.tokens[pos]? = some t ∧ t.is text :=
  token_of_cellIs ((cellIs_eq s pos text).trans (congrArg _ h))

theorem not_is_of_is {l : Lexeme} {other : String} (h : l.is text) (apart : text ≠ other) :
    l.is other = false := by
  simp only [Lexeme.is, Bool.and_eq_true, beq_iff_eq] at h
  simp [Lexeme.is, h.2, apart]

def Follows (s : TokenStream) (current : Partial) (start : Nat) (run : Check (Decl × Nat))
    (item : Except Fault (Item × List Lexeme)) : Prop :=
  current.read (ahead s start) = item → Agrees s current .member start run

section Keywords

variable {head : Nat} {word : String}

theorem ItemAgrees.follows {item : Except Fault (Item × List Lexeme)}
    (h : ItemAgrees s start .member run item) (continues : Continues s start) :
    Follows s current start run item := by
  rintro rfl
  exact h.agrees continues

theorem container_of_keyword (kind : ContainerKind) (visibility : Visibility)
    (inner : BodiesAgree s start) (continues : Continues s start) (order : start ≤ head)
    (keyword : Lexeme.startsWith (ahead s head) word) (apart : word ≠ "record") :
    Follows s current start (container s kind visibility start head)
      (readContainer kind visibility (ahead s start) (ahead s head)) := by
  obtain ⟨t, here, isKeyword⟩ := token_of_startsWith keyword
  exact container_agrees inner continues order here (not_is_of_is isKeyword apart)

theorem wholeType_of_keyword (kind : DeclKind) (visibility : Visibility)
    (continues : Continues s start) (order : start ≤ head)
    (keyword : Lexeme.startsWith (ahead s head) word) (apart : word ≠ "record") :
    Follows s current start (wholeType s kind visibility start head)
      (readWholeType kind (Outline.declaredKey (ahead s (head + 1))) visibility (ahead s start)
        (ahead s head)) := by
  obtain ⟨t, here, isKeyword⟩ := token_of_startsWith keyword
  have whole := wholeType_agrees here order kind visibility
  rw [not_is_of_is isKeyword apart, if_neg Bool.false_ne_true] at whole
  exact whole.follows continues

theorem record_of_keyword (visibility : Visibility) (continues : Continues s start)
    (order : start ≤ head) (keyword : Lexeme.startsWith (ahead s head) "record") :
    Follows s current start (wholeType s (.other .record) visibility start head)
      (readWholeType (.other .record) (recordKey (ahead s (head + 1))) visibility (ahead s start)
        (ahead s head)) := by
  obtain ⟨t, here, isKeyword⟩ := token_of_startsWith keyword
  have whole := wholeType_agrees here order (.other .record) visibility
  rw [if_pos isKeyword] at whole
  exact whole.follows continues

end Keywords

theorem member_agrees (regular : ∀ t ∈ s.tokens, t.toLexeme.Regular) (inner : BodiesAgree s start)
    (continues : Continues s start)
    (reads : current.read (ahead s start) = readMember current.scope (ahead s start)) :
    Agrees s current .member start (member s current.scope start) := by
  have reached := afterAttributes_reaches s start
  have begun : start < s.tokens.length := by
    obtain ⟨t, here, _⟩ := continues
    exact (List.getElem?_eq_some_iff.mp here).1
  rw [member]
  rw [readMember] at reads
  cases scan : Outline.afterAttributes (ahead s start) with
  | error f =>
    rw [scan] at reached reads
    rw [reached]
    refine .fault fun outer => ?_
    rw [continues.read, reads]
    rfl
  | ok rest =>
    rw [scan] at reached reads
    obtain ⟨first, ran, order, within, rfl⟩ := reached
    obtain ⟨head, skipped, after, last, taken, dropped⟩ :=
      skip_eq s Lexeme.isModifier first (Nat.le_refl _)
    have later : start ≤ head := Nat.le_trans order after
    rw [extract_ahead] at taken
    rw [extract_ahead, extract_ahead] at dropped
    simp only [← taken, ← dropped, tail_ahead] at reads
    rw [ran, ok_bind, skipped, ok_bind, texts_eq s first (last (within (Nat.le_of_lt begun))),
      ok_bind]
    generalize Visibility.ofModifiers _ = visibility at reads ⊢
    simp only [cellIs_eq, cellIsWord_eq, ok_bind]
    revert reads
    change Follows s current start _ _
    refine ite_rel (fun isNamespace => ?_) fun _ => ite_rel (fun isClass => ?_) fun _ =>
      ite_rel (fun isInterface => ?_) fun _ => ite_rel (fun isEnum => ?_) fun _ =>
      ite_rel (fun isStruct => ?_) fun _ => ite_rel (fun isRecord => ?_) fun _ => ?_
    · exact container_of_keyword _ _ inner continues later isNamespace (by decide)
    · exact container_of_keyword _ _ inner continues later isClass (by decide)
    · exact container_of_keyword _ _ inner continues later isInterface (by decide)
    · exact wholeType_of_keyword _ _ continues later isEnum (by decide)
    · exact wholeType_of_keyword _ _ continues later isStruct (by decide)
    · exact record_of_keyword _ continues later (Bool.and_eq_true_iff.mp isRecord).1
    · exact (plainMember_agrees regular current.scope visibility later).follows continues

theorem startsWith_of_attribute {ls : List Lexeme} (h : startsGlobalAttribute ls) :
    Lexeme.startsWith ls "[" := by
  rw [startsGlobalAttribute, Bool.and_eq_true, Bool.and_eq_true] at h
  exact h.1.1

theorem Built.agrees_atEnd (h : Built s start openTrailing current block pos)
    (here : s.tokens[pos]? = none) (inside : pos ≤ s.tokens.length) :
    BodyAgrees s start openTrailing current pos (if block.braced then
      .error (.fault (.endOfFile .closeBrace s.finish)) else .ok (block, pos)) := by
  have ended := List.getElem?_eq_none_iff.mp here
  split
  · rename_i braced
    rw [h.braced_eq] at braced
    refine .fault (f := .endOfFile .closeBrace) fun outer => ?_
    rw [ahead_of_none here, Outline.read.eq_def]
    simp only [braced, if_true]
  · rename_i unbraced
    refine .block h h.braced_eq (Nat.le_refl pos) ?_ fun _ => rfl
    rw [Complete, if_neg unbraced]
    omega

theorem Built.agrees_atClose (h : Built s start openTrailing current block pos) {t : Token}
    (here : s.tokens[pos]? = some t) (closes : t.is "\x7d") :
    BodyAgrees s start openTrailing current pos (if block.braced then .ok (block, pos)
      else .error (.fault (.unexpected t.text t.position))) := by
  split
  · rename_i braced
    refine .block h h.braced_eq (Nat.le_refl pos) ?_ fun _ => rfl
    rw [Complete, if_pos braced]
    exact ⟨t, here, closes⟩
  · rename_i unbraced
    rw [h.braced_eq, Bool.not_eq_true] at unbraced
    rw [← toError_unexpected here]
    refine .fault fun outer => ?_
    rw [ahead_of_some here, Outline.read.eq_def]
    simp only [closes, if_true, unbraced]

/-- No check fails while a block is read, and the block is the one that is read by suffixes. -/
theorem blockBody_agrees (regular : ∀ t ∈ s.tokens, t.toLexeme.Regular)
    (built : Built s start openTrailing current block pos) (inside : pos ≤ s.tokens.length) :
    BodyAgrees s start openTrailing current pos (blockBody s current.scope block pos) := by
  induction left : s.tokens.length - pos using Nat.strongRecOn
    generalizing start openTrailing current block pos with
  | ind left ih =>
    have inner : BodiesAgree s pos := fun first ot inCurrent inBlock inPos behind within built =>
      ih (s.tokens.length - inPos) (by omega) built within rfl
    rw [blockBody, cell_eq]
    cases here : s.tokens[pos]? with
    | none =>
      exact built.agrees_atEnd here inside
    | some t =>
      simp only
      split
      · rename_i closes
        exact built.agrees_atClose here closes
      · rename_i opens
        have continues : Continues s pos := ⟨t, here, Bool.not_eq_true _ ▸ opens⟩
        have reads := built.read_eq (ahead s pos)
        simp only [atImport_eq, atGlobalAttribute_eq, ok_bind]
        split at reads
        · rename_i isImport
          rw [if_pos isImport]
          have first := importDecl_agrees s pos
          rw [← reads] at first
          exact (first.agrees continues).andThen built fun _ _ _ behind within added =>
            ih _ (by omega) added within rfl
        · rename_i noImport
          rw [if_neg noImport]
          split at reads
          · rename_i isAttribute
            rw [if_pos isAttribute]
            simp only [Bool.and_eq_true] at isAttribute
            obtain ⟨t, token, opens⟩ := token_of_startsWith (startsWith_of_attribute isAttribute.2)
            have first := globalAttribute_agrees token opens
            rw [← reads] at first
            exact (first.agrees continues).andThen built fun _ _ _ behind within added =>
              ih _ (by omega) added within rfl
          · rename_i noAttribute
            rw [if_neg noAttribute]
            exact (member_agrees regular inner continues reads).andThen built
              fun _ _ _ behind within added => ih _ (by omega) added within rfl

end CSharpTidy.Indexed
