import CSharpTidy.Proofs.LexerRun
import Mathlib.Data.List.Infix

/- Runs of conditional compilation over any directives, refused ones among them. A refused
   directive changes nothing; the open branches stay nested; of the arms of one conditional at most
   one is compiled. The lexer keeps the positions of the open conditionals in step. -/
namespace CSharpTidy

variable {kind : DirectiveKind} {line : List Char}

namespace Conditional

inductive Effect (c : Conditional) (line : List Char) : DirectiveKind → Conditional → Prop
  | opened {value : Bool} (live : value → c.isActive) :
      Effect c line .ifTest
        { c with branches := ⟨c.isActive, value, value, false⟩ :: c.branches }
  | nextArm {branch : Branch} {outer : List Branch} {value : Bool}
      (inside : c.branches = branch :: outer)
      (live : value → branch.parentActive ∧ branch.taken = false) :
      Effect c line .elifTest { c with
        branches := { branch with active := value, taken := branch.taken || value } :: outer }
  | lastArm {branch : Branch} {outer : List Branch} (inside : c.branches = branch :: outer) :
      Effect c line .elseArm { c with
        branches := ⟨branch.parentActive, true, branch.parentActive && !branch.taken, true⟩ ::
          outer }
  | closed {branch : Branch} {outer : List Branch} (inside : c.branches = branch :: outer) :
      Effect c line .endIf { c with branches := outer }
  | defined (active : c.isActive) (valid : isSymbol (DirectiveLine.argument line)) :
      Effect c line .define (c.define (String.ofList (DirectiveLine.argument line)))
  | undefined (active : c.isActive) (valid : isSymbol (DirectiveLine.argument line)) :
      Effect c line .undef (c.undefine (String.ofList (DirectiveLine.argument line)))
  | ignored {kind : DirectiveKind} (plain : kind.isConditional = false) : Effect c line kind c

def Settled (c : Conditional) (kind : DirectiveKind) (line : List Char) :
    EStateM.Result DirectiveError Conditional Unit → Prop
  | .ok _ c' => c.Effect line kind c'
  | .error _ c' => c' = c

variable {c c' : Conditional} {inner outer : List Branch} {branch : Branch} {calls : List Call}
  {call : Call} {β α : Type}

theorem bind_ok {x : Update α} {f : α → Update β} {a : α} (h : x c = .ok a c') :
    (x >>= f) c = f a c' := by
  simp only [bind, EStateM.bind, h]

theorem bind_error {x : Update α} {f : α → Update β} {cause : DirectiveError}
    (h : x c = .error cause c') : (x >>= f) c = .error cause c' := by
  simp only [bind, EStateM.bind, h]

theorem get_bind (f : Conditional → Update β) (c : Conditional) : (get >>= f) c = f c c := rfl

theorem evaluate_settled (c : Conditional) (expr : List Char) :
    (∃ value, evaluate expr c = .ok value c) ∨ ∃ cause, evaluate expr c = .error cause c := by
  unfold evaluate
  cases Condition.evaluate c.symbols expr with
  | ok value => exact .inl ⟨value, rfl⟩
  | error cause => exact .inr ⟨_, rfl⟩

theorem openIf_settled (c : Conditional) (line : List Char) :
    c.Settled .ifTest line (openIf (DirectiveLine.argument line) c) := by
  rw [openIf, get_bind]
  cases active : c.isActive with
  | false =>
    have effect := @Effect.opened c line false (by simp)
    rwa [active] at effect
  | true =>
    rw [if_pos rfl]
    obtain ⟨value, read⟩ | ⟨cause, read⟩ := c.evaluate_settled (DirectiveLine.argument line)
    · rw [bind_ok read]
      have effect := @Effect.opened c line value fun _ => active
      rwa [active] at effect
    · rw [bind_error read]
      rfl

theorem nextArm_settled (c : Conditional) (line : List Char) :
    c.Settled .elifTest line (nextArm (DirectiveLine.argument line) c) := by
  rw [nextArm, get_bind]
  cases inside : c.branches with
  | nil => rfl
  | cons branch outer =>
    cases seen : branch.seenElse with
    | true =>
      simp only [seen, if_true]
      rfl
    | false =>
      simp only [seen, Bool.false_eq_true, if_false]
      split
      · rename_i unselected
        simp only [Bool.and_eq_true, Bool.not_eq_true'] at unselected
        obtain ⟨value, read⟩ | ⟨cause, read⟩ := c.evaluate_settled (DirectiveLine.argument line)
        · rw [bind_ok read]
          have effect := @Effect.nextArm c line _ _ value inside fun _ => unselected
          rwa [unselected.2, Bool.false_or, seen] at effect
        · rw [bind_error read]
          rfl
      · have effect := @Effect.nextArm c line _ _ false inside (by simp)
        rwa [Bool.or_false, seen] at effect

theorem lastArm_settled (c : Conditional) (line : List Char) :
    c.Settled .elseArm line (lastArm c) := by
  rw [lastArm, get_bind]
  cases inside : c.branches with
  | nil => rfl
  | cons branch outer =>
    cases seen : branch.seenElse with
    | true =>
      simp only [seen, if_true]
      rfl
    | false =>
      simp only [seen, Bool.false_eq_true, if_false]
      exact .lastArm inside

theorem closeIf_settled (c : Conditional) (line : List Char) :
    c.Settled .endIf line (closeIf c) := by
  rw [closeIf, get_bind]
  cases inside : c.branches with
  | nil => rfl
  | cons branch outer => exact .closed inside

theorem changeSymbol_settled (c : Conditional) {change : Conditional → String → Conditional}
    (plain : kind.isConditional = false)
    (changed : c.isActive → isSymbol (DirectiveLine.argument line) →
      c.Effect line kind (change c (String.ofList (DirectiveLine.argument line)))) :
    c.Settled kind line (changeSymbol (DirectiveLine.argument line) change c) := by
  rw [changeSymbol, get_bind]
  cases active : c.isActive with
  | false => exact .ignored plain
  | true =>
    cases valid : isSymbol (DirectiveLine.argument line) with
    | false => rfl
    | true => exact changed active valid

theorem update_settled (c : Conditional) (kind : DirectiveKind) (line : List Char) :
    c.Settled kind line (update kind line c) := by
  cases kind with
  | ifTest => exact c.openIf_settled line
  | elifTest => exact c.nextArm_settled line
  | elseArm => exact c.lastArm_settled line
  | endIf => exact c.closeIf_settled line
  | define => exact c.changeSymbol_settled rfl .defined
  | undef => exact c.changeSymbol_settled rfl .undefined
  | _ => exact .ignored rfl

theorem apply_effect (h : c.apply kind line = .ok c') : c.Effect line kind c' := by
  have settled := c.update_settled kind line
  unfold apply at h
  split at h
  · rename_i done
    cases h
    rwa [done] at settled
  · cases h

structure Call where
  kind : DirectiveKind
  line : List Char

def step (c : Conditional) (call : Call) : Conditional :=
  match update call.kind call.line c with
  | .ok _ after => after
  | .error _ after => after

def run (c : Conditional) (calls : List Call) : Conditional :=
  calls.foldl step c

def accepts (c : Conditional) (call : Call) : Bool :=
  (c.apply call.kind call.line).isOk

theorem step_cases (c : Conditional) (call : Call) :
    (c.accepts call = false ∧ c.step call = c) ∨
      (c.accepts call = true ∧ c.Effect call.line call.kind (c.step call)) := by
  have settled := c.update_settled call.kind call.line
  unfold step accepts apply
  cases done : update call.kind call.line c with
  | ok _ after =>
    rw [done] at settled
    exact .inr ⟨rfl, settled⟩
  | error _ after =>
    rw [done] at settled
    exact .inl ⟨rfl, settled⟩

/-- Every branch knows whether the branches around it are compiled, and is compiled only if they
are and if it is the arm that was selected. -/
def Nested : List Branch → Prop
  | [] => True
  | branch :: outer => branch.parentActive = outer.all Branch.active ∧
      (branch.active → branch.parentActive) ∧ (branch.active → branch.taken) ∧ Nested outer

theorem isActive_of_nested (h : Nested c.branches) : c.isActive = c.branches.all Branch.active := by
  unfold isActive
  cases inside : c.branches with
  | nil => rfl
  | cons branch outer =>
    rw [inside] at h
    obtain ⟨parent, below, -⟩ := h
    rw [List.all_cons, ← parent]
    cases active : branch.active with
    | false => simp [active]
    | true => simp [active, below active]

theorem Effect.nested (h : c.Effect line kind c') (nested : Nested c.branches) :
    Nested c'.branches := by
  cases h with
  | opened live => exact ⟨isActive_of_nested nested, live, id, nested⟩
  | nextArm inside live =>
    rw [inside] at nested
    obtain ⟨parent, -, -, outer⟩ := nested
    exact ⟨parent, fun active => (live active).1, fun active => Bool.or_eq_true_iff.mpr (.inr active),
      outer⟩
  | lastArm inside =>
    rw [inside] at nested
    obtain ⟨parent, -, -, outer⟩ := nested
    exact ⟨parent, fun active => by simp_all, fun _ => rfl, outer⟩
  | closed inside =>
    rw [inside] at nested
    exact nested.2.2.2
  | defined => exact nested
  | undefined => exact nested
  | ignored => exact nested

theorem step_nested (call : Call) (nested : Nested c.branches) : Nested (c.step call).branches := by
  obtain ⟨-, same⟩ | ⟨-, effect⟩ := c.step_cases call
  · rwa [same]
  · exact effect.nested nested

theorem run_nested (calls : List Call) (nested : Nested c.branches) :
    Nested (c.run calls).branches := by
  induction calls generalizing c with
  | nil => exact nested
  | cons call calls ih => exact ih (step_nested call nested)

theorem Nested.parentActive (h : Nested (inner ++ branch :: outer)) :
    branch.parentActive = outer.all Branch.active := by
  induction inner with
  | nil => exact h.1
  | cons _ inner ih => exact ih h.2.2.2

theorem Nested.taken {branches : List Branch} (h : Nested branches) :
    ∀ branch ∈ branches, branch.active → branch.taken := by
  induction branches with
  | nil => simp
  | cons branch outer ih =>
    rw [List.forall_mem_cons]
    exact ⟨h.2.2.1, ih h.2.2.2⟩

/-- Whether a directive begins an arm of the conditional that has `height` conditionals around
it. -/
def beginsArm (height : Nat) (c : Conditional) (call : Call) : Bool :=
  c.accepts call &&
    ((call.kind == .ifTest && c.depth == height) ||
      ((call.kind == .elifTest || call.kind == .elseArm) && c.depth == height + 1))

/-- For each arm of that conditional that begins in a run, whether it is compiled. -/
def arms (height : Nat) (c : Conditional) : List Call → List Bool
  | [] => []
  | call :: calls =>
      let later := arms height (c.step call) calls
      if c.beginsArm height call then (c.step call).isActive :: later else later

/-- The conditional stays open through a run. -/
def StaysOpen (height : Nat) (c : Conditional) (calls : List Call) : Prop :=
  ∀ done ∈ calls.inits, height < (c.run done).depth

instance (height : Nat) (c : Conditional) (calls : List Call) :
    Decidable (StaysOpen height c calls) :=
  inferInstanceAs (Decidable (∀ done ∈ calls.inits, height < (c.run done).depth))

def branchAt (height : Nat) (c : Conditional) : Option Branch :=
  c.branches.reverse[height]?

theorem branchAt_append (inside : c.branches = inner ++ branch :: outer) :
    c.branchAt outer.length = some branch := by
  simp [branchAt, inside]

/-- How the branch of one arm becomes the branch of the next. -/
structure Follows (next branch : Branch) : Prop where
  parentActive : next.parentActive = branch.parentActive
  taken : branch.taken → next.taken
  active : next.active → branch.parentActive ∧ branch.taken = false ∧ next.taken

theorem Effect.beneath (h : c.Effect line kind c') (inside : c.branches = inner ++ branch :: outer)
    (stays : outer.length < c'.depth) : if (kind = .elifTest ∨ kind = .elseArm) ∧ inner = [] then
      ∃ next, c'.branches = next :: outer ∧ Follows next branch
    else ∃ inner', c'.branches = inner' ++ branch :: outer := by
  cases h with
  | opened live =>
    rw [if_neg (by simp)]
    exact ⟨_ :: inner, congrArg (_ :: ·) inside⟩
  | @nextArm own around value around_eq live =>
    cases inner with
    | nil =>
      obtain ⟨rfl, rfl⟩ := List.cons.inj (around_eq.symm.trans inside)
      rw [if_pos (by simp)]
      refine ⟨_, rfl, rfl, fun taken => ?_, fun active => ?_⟩
      · exact Bool.or_eq_true_iff.mpr (.inl taken)
      · exact ⟨(live active).1, (live active).2, Bool.or_eq_true_iff.mpr (.inr active)⟩
    | cons top inner =>
      obtain ⟨-, rfl⟩ := List.cons.inj (around_eq.symm.trans inside)
      rw [if_neg (by simp)]
      exact ⟨_ :: inner, rfl⟩
  | @lastArm own around around_eq =>
    cases inner with
    | nil =>
      obtain ⟨rfl, rfl⟩ := List.cons.inj (around_eq.symm.trans inside)
      rw [if_pos (by simp)]
      refine ⟨_, rfl, rfl, fun _ => rfl, fun active => ?_⟩
      simp only [Bool.and_eq_true, Bool.not_eq_true'] at active
      exact ⟨active.1, active.2, rfl⟩
    | cons top inner =>
      obtain ⟨-, rfl⟩ := List.cons.inj (around_eq.symm.trans inside)
      rw [if_neg (by simp)]
      exact ⟨_ :: inner, rfl⟩
  | @closed own around around_eq =>
    rw [if_neg (by simp)]
    cases inner with
    | nil =>
      obtain ⟨-, rfl⟩ := List.cons.inj (around_eq.symm.trans inside)
      exact absurd stays (Nat.lt_irrefl _)
    | cons top inner =>
      obtain ⟨-, rfl⟩ := List.cons.inj (around_eq.symm.trans inside)
      exact ⟨inner, rfl⟩
  | defined | undefined =>
    rw [if_neg (by simp)]
    exact ⟨inner, inside⟩
  | ignored plain =>
    rw [if_neg (by rintro ⟨rfl | rfl, -⟩ <;> cases plain)]
    exact ⟨inner, inside⟩

theorem step_beneath (inside : c.branches = inner ++ branch :: outer)
    (stays : outer.length < (c.step call).depth) : if c.beginsArm outer.length call then
      ∃ next, (c.step call).branches = next :: outer ∧ Follows next branch
    else ∃ inner', (c.step call).branches = inner' ++ branch :: outer := by
  have depth : c.depth = inner.length + 1 + outer.length := by
    simp only [Conditional.depth, inside, List.length_append, List.length_cons]
    omega
  obtain ⟨refused, same⟩ | ⟨accepted, effect⟩ := c.step_cases call
  · rw [if_neg (by simp [beginsArm, refused]), same]
    exact ⟨inner, inside⟩
  · have begins : c.beginsArm outer.length call = true ↔
        (call.kind = .elifTest ∨ call.kind = .elseArm) ∧ inner = [] := by
      have innermost : inner.length + 1 + outer.length = outer.length + 1 ↔ inner = [] := by
        rw [← List.length_eq_zero_iff]
        omega
      simp [beginsArm, accepted, depth, innermost]
    rw [if_congr begins rfl rfl]
    exact effect.beneath inside stays

theorem StaysOpen.step {height : Nat} (h : StaysOpen height c (call :: calls)) :
    height < (c.step call).depth ∧ StaysOpen height (c.step call) calls :=
  ⟨h [call] (by simp), fun done ahead => h (call :: done) (by simpa using ahead)⟩

/-- What the later arms of an open conditional can be, told from its branch. -/
structure ArmsBehind (branch : Branch) (last : Option Branch) (later : List Bool) : Prop where
  dead : branch.parentActive = false → true ∉ later
  taken : branch.taken → true ∉ later
  single : later.count true ≤ 1
  last : last.map Branch.active = (branch.active :: later).getLast?

theorem ArmsBehind.cons {next : Branch} {last : Option Branch} {later : List Bool}
    (h : ArmsBehind next last later) (follows : Follows next branch) :
    ArmsBehind branch last (next.active :: later) := by
  have selected : next.active → branch.parentActive ∧ branch.taken = false := fun active =>
    ⟨(follows.active active).1, (follows.active active).2.1⟩
  refine ⟨fun dead => ?_, fun taken => ?_, ?_, ?_⟩
  · have := h.dead (follows.parentActive.trans dead)
    cases active : next.active <;> simp_all
  · have := h.taken (follows.taken taken)
    cases active : next.active <;> simp_all
  · cases active : next.active with
    | false => simpa using h.single
    | true => simp [List.count_eq_zero.mpr (h.taken (follows.active active).2.2)]
  · rw [h.last]
    rfl

theorem arms_behind (inside : c.branches = inner ++ branch :: outer)
    (stays : StaysOpen outer.length c calls) :
    ArmsBehind branch ((c.run calls).branchAt outer.length) (c.arms outer.length calls) := by
  induction calls generalizing c inner branch with
  | nil =>
    refine ⟨by simp [arms], by simp [arms], by simp [arms], ?_⟩
    simp [run, branchAt_append inside, arms]
  | cons call calls ih =>
    obtain ⟨above, rest⟩ := stays.step
    have beneath := step_beneath inside above
    simp only [arms]
    split at beneath
    · rename_i begins
      obtain ⟨next, inside', follows⟩ := beneath
      have active : (c.step call).isActive = next.active := by simp [isActive, inside']
      rw [if_pos begins, active]
      exact (ih (show _ = [] ++ next :: outer from inside') rest).cons follows
    · rename_i touchesNot
      obtain ⟨inner', inside'⟩ := beneath
      rw [if_neg touchesNot]
      exact ih inside' rest

theorem inside_opened (c : Conditional) (value : Bool) :
    ({ c with branches := ⟨c.isActive, value, value, false⟩ :: c.branches } : Conditional).branches =
      [] ++ ⟨c.isActive, value, value, false⟩ :: c.branches := rfl

theorem arms_of_opened (opens : call.kind = .ifTest) (accepted : c.accepts call)
    (stays : StaysOpen c.depth (c.step call) calls) :
    (c.arms c.depth (call :: calls)).count true ≤ 1 ∧
      (c.isActive = false → true ∉ c.arms c.depth (call :: calls)) ∧
      ((c.run (call :: calls)).branchAt c.depth).map Branch.active =
        (c.arms c.depth (call :: calls)).getLast? := by
  have begins : c.beginsArm c.depth call := by simp [beginsArm, opens, accepted]
  obtain ⟨refused, -⟩ | ⟨-, effect⟩ := c.step_cases call
  · rw [refused] at accepted
    cases accepted
  · rw [opens] at effect
    generalize after : c.step call = c' at effect stays
    simp only [arms, begins, if_true, after, run, List.foldl_cons]
    cases effect with
    | @opened value live =>
      -- The opening arm follows on a branch of which no arm has been selected.
      have first : Follows ⟨c.isActive, value, value, false⟩ ⟨c.isActive, false, false, false⟩ :=
        ⟨rfl, by simp, fun active => ⟨live active, rfl, active⟩⟩
      have behind := (arms_behind (inside_opened c value) stays).cons first
      exact ⟨behind.single, behind.dead, behind.last⟩
    | ignored plain => cases plain

def ChangesSymbol (c : Conditional) (call : Call) : Prop :=
  let name := String.ofList (DirectiveLine.argument call.line)
  (call.kind = .define ∧ ∀ s, s ∈ (c.step call).symbols ↔ s = name ∨ s ∈ c.symbols) ∨
    (call.kind = .undef ∧ ∀ s, s ∈ (c.step call).symbols ↔ s ≠ name ∧ s ∈ c.symbols)

theorem step_symbols (c : Conditional) (call : Call) :
    (c.step call).symbols = c.symbols ∨
      (c.isActive ∧ isSymbol (DirectiveLine.argument call.line) ∧ c.ChangesSymbol call) := by
  obtain ⟨-, same⟩ | ⟨-, effect⟩ := c.step_cases call
  · exact .inl (by rw [same])
  · unfold ChangesSymbol
    obtain ⟨kind, line⟩ := call
    generalize c.step ⟨kind, line⟩ = c' at effect
    cases effect with
    | defined active valid =>
      exact .inr ⟨active, valid, .inl ⟨rfl, fun s => List.mem_insert_iff⟩⟩
    | undefined active valid =>
      exact .inr ⟨active, valid, .inr ⟨rfl, fun s => by simp [undefine, and_comm]⟩⟩
    | _ => exact .inl rfl

structure Regular (c : Conditional) : Prop where
  active : c.isActive = c.branches.all Branch.active
  parents : ∀ inner branch outer, c.branches = inner ++ branch :: outer →
    branch.parentActive = outer.all Branch.active
  taken : ∀ branch ∈ c.branches, branch.active → branch.taken
  arms : ∀ call calls, call.kind = .ifTest → c.accepts call →
    StaysOpen c.depth (c.step call) calls →
      (c.arms c.depth (call :: calls)).count true ≤ 1 ∧
        (c.isActive = false → true ∉ c.arms c.depth (call :: calls)) ∧
        ((c.run (call :: calls)).branchAt c.depth).map Branch.active =
          (c.arms c.depth (call :: calls)).getLast?
  symbols : ∀ call, (c.step call).symbols = c.symbols ∨
    (c.isActive ∧ isSymbol (DirectiveLine.argument call.line) ∧ c.ChangesSymbol call)
  refused : ∀ kind line cause c', update kind line c = .error cause c' → c' = c

theorem regular_of_nested (nested : Nested c.branches) : c.Regular where
  active := isActive_of_nested nested
  parents inner branch outer inside := Nested.parentActive (inside ▸ nested)
  taken := nested.taken
  arms _ _ opens accepted stays := arms_of_opened opens accepted stays
  symbols := c.step_symbols
  refused kind line cause c' failed := by
    have settled := c.update_settled kind line
    rwa [failed] at settled

end Conditional

namespace Cursor

/-- As many positions are kept as conditionals are open. -/
def InStep (c : Cursor) : Prop :=
  c.opened.length = c.conditional.depth

theorem terminator_keeps (c : Cursor) :
    c.terminator.2.conditional = c.conditional ∧ c.terminator.2.opened = c.opened := by
  unfold terminator
  split
  · exact ⟨rfl, rfl⟩
  · split <;> exact ⟨rfl, rfl⟩

variable {c c' : Cursor} {span : Span} {side : Side}

theorem terminator_inStep (h : c.InStep) : c.terminator.2.InStep := by
  obtain ⟨conditional, opened⟩ := c.terminator_keeps
  rwa [InStep, conditional, opened]

theorem inlinePiece_inStep {t : Trivia} (h : c.InStep)
    (found : c.inlinePiece = .ok (some (t, c'))) :
    c'.InStep := by
  unfold inlinePiece at found
  split at found
  · cases found
  · split at found
    · cases found
      exact h
    · split at found <;> cases found
      exact h

theorem openedAfter_length {conditional : Conditional} (h : c.InStep)
    (applied : c.conditional.apply kind line = .ok conditional) :
    (c.openedAfter kind).length = conditional.depth := by
  have length : c.opened.length = c.conditional.branches.length := h
  have effect := Conditional.apply_effect applied
  cases effect with
  | opened => simp [openedAfter, Conditional.depth, length]
  | nextArm inside | lastArm inside | closed inside =>
    simp [openedAfter, Conditional.depth, length, inside]
  | defined => exact h
  | undefined => exact h
  | ignored plain =>
    cases kind with
    | ifTest | endIf => cases plain
    | _ => exact h

theorem directive_inStep (h : c.InStep) (found : c.directive = .ok (span, c')) : c'.InStep := by
  simp only [directive] at found
  split at found
  · cases found
  · rename_i applied
    have length := openedAfter_length h applied
    split at found
    · cases found
      exact length
    · cases found
      exact terminator_inStep length

theorem leadingPiece_inStep (h : c.InStep) (found : c.leadingPiece = .ok (some (span, c'))) :
    c'.InStep := by
  unfold leadingPiece at found
  split at found
  · cases found
  · split at found
    · have kept := terminator_inStep h
      rwa [Option.some.inj (Except.ok.inj found)] at kept
    · split at found
      · split at found
        · cases found
        · rename_i directed
          cases found
          exact directive_inStep h directed
      · split at found
        · cases found
        · cases found
        · rename_i inline
          cases found
          exact inlinePiece_inStep h inline

theorem lexeme_inStep {a : Char} {rest : List Char} {l : Lexeme} (h : c.InStep)
    (found : c.lexeme a rest = .ok (l, c')) : c'.InStep := by
  unfold lexeme at found
  split at found <;> cases found
  exact h

theorem Step.inStep {side' : Side} {es : List Element} (h : Step side c es side' c')
    (inStep : c.InStep) : c'.InStep := by
  cases h with
  | piece found => exact leadingPiece_inStep inStep found
  | lexeme _ _ found => exact lexeme_inStep inStep found
  | inline found => exact inlinePiece_inStep inStep found
  | lineEnd _ => exact terminator_inStep inStep

/-- The places that the lexer comes to in a text, whether it gets to its end or fails. -/
inductive Reached (text : List Char) (symbols : List String) : Side → Cursor → Prop
  | start : Reached text symbols .leading (ofText text symbols)
  | step {side side' : Side} {c c' : Cursor} {es : List Element}
      (before : Reached text symbols side c) (next : Step side c es side' c') :
      Reached text symbols side' c'

theorem Reached.inStep {text : List Char} {symbols : List String}
    (h : Reached text symbols side c) :
    c.InStep := by
  induction h with
  | start => rfl
  | step _ next ih => exact next.inStep ih

end Cursor

/-- From any symbols, every state that directives lead to is regular, and so is the lexer's
book-keeping at every place of a text. -/
theorem Conditional.run_regular (symbols : List String) :
    (∀ calls, ((ofSymbols symbols).run calls).Regular) ∧
      ∀ text side c, Cursor.Reached text symbols side c →
        c.opened.length = c.conditional.depth :=
  ⟨fun calls => regular_of_nested (run_nested calls trivial), fun _ _ _ reached => reached.inStep⟩

/-- A chain with a refused directive in it: only the second of its three arms is compiled. -/
theorem Conditional.run_regular_chain :
    let c := ofSymbols ["B"]
    let opening : Call := ⟨.ifTest, "#if A".toList⟩
    let calls : List Call := [⟨.elifTest, "#elif B".toList⟩, ⟨.define, "#define 1".toList⟩,
      ⟨.ifTest, "#if B".toList⟩, ⟨.endIf, "#endif".toList⟩, ⟨.elseArm, "#else".toList⟩]
    c.accepts opening ∧ StaysOpen c.depth (c.step opening) calls ∧
      c.arms c.depth (opening :: calls) = [false, true, false] ∧
      (c.arms c.depth (opening :: calls)).count true ≤ 1 := by
  intro c opening calls
  have accepted : c.accepts opening := by decide +kernel
  have stays : StaysOpen c.depth (c.step opening) calls := by decide +kernel
  have regular := (run_regular ["B"]).1 []
  exact ⟨accepted, stays, by decide +kernel, (regular.arms opening calls rfl accepted stays).1⟩

end CSharpTidy
