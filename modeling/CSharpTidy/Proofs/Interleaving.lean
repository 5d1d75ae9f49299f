import CSharpTidy.Proofs.FileTask
import Mathlib.Data.List.Forall2
import Mathlib.Logic.Relation

/- Work on many files at once. Tasks for different files share nothing that one of them writes, so
   however their calls are mixed, they end with the outcomes and the files of a run that takes
   one file after the other. -/
namespace CSharpTidy

structure Pool where
  fs : FileSystem
  printed : List Char
  tasks : List (Task Outcome)

namespace Pool

def start (options : BatchOptions) (env : Environment) (files : List Path) : Pool :=
  ⟨env.fs, [], files.map (Task.process options env.home?)⟩

inductive Step : Pool → Pool → Prop
  | call {fs : FileSystem} {printed : List Char} {before after : List (Task Outcome)}
      (c : Call) (next : c.Answer → Task Outcome) :
      Step ⟨fs, printed, before ++ .call c next :: after⟩
        ⟨c.after fs, printed ++ c.printed, before ++ next (c.answer fs) :: after⟩

abbrev Interleaved : Pool → Pool → Prop :=
  Relation.ReflTransGen Step

def Finished (pool : Pool) (outcomes : List Outcome) : Prop :=
  pool.tasks = outcomes.map .done

theorem interleaved_run (t : Task Outcome) (fs : FileSystem) (printed : List Char)
    (before after : List (Task Outcome)) :
    Interleaved ⟨fs, printed, before ++ t :: after⟩
      ⟨t.after fs, printed ++ t.printed fs, before ++ .done (t.result fs) :: after⟩ := by
  induction t generalizing fs printed with
  | done a =>
    rw [Task.printed, List.append_nil]
    exact .refl
  | call c next ih =>
    apply Relation.ReflTransGen.head (Step.call c next)
    rw [Task.printed, ← List.append_assoc]
    exact ih _ _ _

/-- No task ever has to wait: whatever happened so far, all of them can be brought to their end. -/
theorem exists_finished (fs : FileSystem) (printed : List Char) (before : List Outcome)
    (tasks : List (Task Outcome)) : ∃ pool outcomes,
    Interleaved ⟨fs, printed, before.map .done ++ tasks⟩ pool ∧ pool.Finished outcomes := by
  induction tasks generalizing fs printed before with
  | nil => exact ⟨_, before, .refl, by simp [Finished]⟩
  | cons t tasks ih =>
    obtain ⟨pool, outcomes, later, finished⟩ :=
      ih (t.after fs) (printed ++ t.printed fs) (before ++ [t.result fs])
    rw [List.map_append, List.append_assoc] at later
    exact ⟨pool, outcomes, (interleaved_run t fs printed _ tasks).trans later, finished⟩

end Pool

/-- No two paths lead to one file, and none to a configuration file of the run. -/
structure Batch.Separate (env : Environment) (files : List Path) : Prop where
  distinct : files.Nodup
  apart : files.Pairwise fun p q => env.fs.sameFile p q = false
  sources : ∀ p ∈ files, ∀ q ∈ files, ∀ file ∈ env.configFiles q, env.fs.sameFile file p = false

namespace Environment

variable {env : Environment} {p q : Path} {l : Location} {written : Location → Option ByteArray}

def own (env : Environment) (p : Path) (written : Location → Option ByteArray) :
    Location → Option ByteArray :=
  fun l => if env.fs.locate p = .ok l then written l else none

theorem own_here (here : env.fs.locate p = .ok l) : env.own p written l = written l := by
  simp [own, here]

theorem own_away (away : env.fs.locate p ≠ .ok l) : env.own p written l = none := by
  simp [own, away]

theorem own_update_self (here : env.fs.locate p = .ok l) (bytes : ByteArray) :
    env.own p (Function.update written l (some bytes)) =
      Function.update (env.own p written) l (some bytes) := by
  funext l'
  by_cases same : l' = l
  · subst same
    simp [own, here]
  · simp [own, same]

theorem own_update_other (here : env.fs.locate p = .ok l) (present : (env.fs.bytesAt? l).isSome)
    (apart : env.fs.sameFile p q = false) (bytes : ByteArray) :
    env.own q (Function.update written l (some bytes)) = env.own q written := by
  have away : env.fs.locate q ≠ .ok l := by
    intro there
    rw [FileSystem.sameFile_iff.mpr ⟨l, here, there, present⟩] at apart
    cases apart
  funext l'
  by_cases same : l' = l
  · subst same
    rw [own_away away, own_away away]
  · simp [own, same]

end Environment

def Batch.WrittenIn (env : Environment) (files : List Path)
    (written : Location → Option ByteArray) : Prop :=
  ∀ l, written l ≠ none → ∃ p ∈ files, env.fs.locate p = .ok l ∧ (env.fs.bytesAt? l).isSome = true

namespace Call

variable {env : Environment} {files : List Path} {p : Path} {c : Call}
  {written : Location → Option ByteArray}

theorem read_own (separate : Batch.Separate env files) (inside : Batch.WrittenIn env files written)
    (mem : p ∈ files) {q : Path} (reads : q = p ∨ q ∈ env.configFiles p) :
    (env.fs.overlay written).read q = (env.fs.overlay (env.own p written)).read q := by
  apply FileSystem.read_overlay_congr
  intro l located
  rcases reads with rfl | config
  · exact (Environment.own_here located).symm
  · by_cases here : env.fs.locate p = .ok l
    · exact (Environment.own_here here).symm
    · rw [Environment.own_away here]
      by_contra other
      obtain ⟨p', mem', there, present⟩ := inside l other
      have apart := separate.sources p' mem' p mem q config
      rw [FileSystem.sameFile_iff.mpr ⟨l, located, there, present⟩] at apart
      cases apart

theorem answer_own (separate : Batch.Separate env files)
    (inside : Batch.WrittenIn env files written) (mem : p ∈ files) (fits : c.Fits env p) :
    c.answer (env.fs.overlay written) = c.answer (env.fs.overlay (env.own p written)) := by
  cases c with
  | isFile q | isDirectory q => exact (answer_overlay rfl).trans (answer_overlay rfl).symm
  | workingPath => rfl
  | write q bytes => rfl
  | print text => rfl
  | size q =>
    exact FileSystem.size_congr (read_own separate inside mem fits)
  | readText q =>
    exact FileSystem.readText_congr (read_own separate inside mem fits)

theorem after_own (inside : Batch.WrittenIn env files written) (mem : p ∈ files)
    (fits : c.Fits env p) : ∃ written',
    Batch.WrittenIn env files written' ∧
      c.after (env.fs.overlay written) = env.fs.overlay written' ∧
      c.after (env.fs.overlay (env.own p written)) = env.fs.overlay (env.own p written') ∧
      ∀ q, env.fs.sameFile p q = false → env.own q written' = env.own q written := by
  by_cases writes : ∃ q bytes, c = .write q bytes
  · obtain ⟨_, bytes, rfl⟩ := writes
    obtain ⟨rfl, file⟩ := fits
    obtain ⟨l, here, present⟩ := FileSystem.present_of_isFile file
    refine ⟨Function.update written l (some bytes), ?_, FileSystem.write_overlay here present,
      ?_, ?_⟩
    · intro l' some
      by_cases same : l' = l
      · subst same
        exact ⟨_, mem, here, present⟩
      · rw [Function.update_of_ne same] at some
        exact inside l' some
    · rw [Environment.own_update_self here]
      exact FileSystem.write_overlay here present
    · intro q apart
      exact Environment.own_update_other here present apart bytes
  · refine ⟨written, inside, ?_, ?_, fun _ _ => rfl⟩ <;> cases c <;> first | rfl | simp at writes

end Call

namespace Pool

/-- A task that stands where its own calls have brought it: left alone with what it wrote itself,
it would end as the work on its file ends when nothing else runs. -/
structure Ahead (options : BatchOptions) (env : Environment) (written : Location → Option ByteArray)
    (p : Path) (t : Task Outcome) : Prop where
  keeps : t.Keeps env.fs (Call.Fits env p) fun _ => True
  result : t.result (env.fs.overlay (env.own p written)) =
    (Task.process options env.home? p).result env.fs
  after : t.after (env.fs.overlay (env.own p written)) =
    (Task.process options env.home? p).after env.fs

def OnTheWay (options : BatchOptions) (env : Environment) (files : List Path) (pool : Pool) : Prop :=
  ∃ written, Batch.WrittenIn env files written ∧ pool.fs = env.fs.overlay written ∧
    List.Forall₂ (Ahead options env written) files pool.tasks

variable {options : BatchOptions} {env : Environment} {files : List Path} {pool pool' : Pool}

theorem onTheWay_start : OnTheWay options env files (start options env files) := by
  refine ⟨fun _ => none, fun l some => absurd rfl some, FileSystem.overlay_none.symm, ?_⟩
  rw [start, List.forall₂_map_right_iff, List.forall₂_same]
  intro p _
  have unwritten : env.own p (fun _ => none) = fun _ => none := by
    funext l
    simp [Environment.own]
  refine ⟨Task.process_keeps options env p, ?_, ?_⟩
  · rw [unwritten, FileSystem.overlay_none]
  · rw [unwritten, FileSystem.overlay_none]

theorem forall₂_append_cons {α β : Type} {R : α → β → Prop} {as : List α} {b : β}
    {before after : List β} (h : List.Forall₂ R as (before ++ b :: after)) :
    ∃ a first last, as = first ++ a :: last ∧ List.Forall₂ R first before ∧ R a b ∧
      List.Forall₂ R last after := by
  induction before generalizing as with
  | nil =>
    cases h with
    | cons here later => exact ⟨_, [], _, rfl, .nil, here, later⟩
  | cons b' before ih =>
    cases h with
    | cons here later =>
      obtain ⟨a, first, last, rfl, front, found, back⟩ := ih later
      exact ⟨a, _ :: first, last, rfl, .cons here front, found, back⟩

variable {written written' : Location → Option ByteArray} {outcomes : List Outcome}

theorem Ahead.other {p : Path} {t : Task Outcome} (same : env.own p written' = env.own p written)
    (ahead : Ahead options env written p t) : Ahead options env written' p t := by
  refine ⟨ahead.keeps, ?_, ?_⟩
  · rw [same]
    exact ahead.result
  · rw [same]
    exact ahead.after

theorem OnTheWay.step (separate : Batch.Separate env files)
    (onTheWay : OnTheWay options env files pool) (step : Step pool pool') :
    OnTheWay options env files pool' := by
  obtain ⟨written, inside, fs_eq, tasks⟩ := onTheWay
  cases step with
  | @call fs printed before after c next =>
    obtain ⟨p, first, last, rfl, front, here, back⟩ := forall₂_append_cons tasks
    have mem : p ∈ first ++ p :: last := by simp
    have fits := here.keeps.1
    obtain ⟨written', inside', shared, alone, others⟩ := Call.after_own inside mem fits
    have answers := Call.answer_own separate inside mem fits
    dsimp only at fs_eq
    subst fs_eq
    have unnoticed : ∀ {qs : List Path} {ts : List (Task Outcome)},
        (∀ q ∈ qs, env.fs.sameFile p q = false) → List.Forall₂ (Ahead options env written) qs ts →
          List.Forall₂ (Ahead options env written') qs ts := by
      intro qs ts apart aheads
      apply ((List.forall₂_and_left qs ts).mpr ⟨apart, aheads⟩).imp
      intro q t both
      exact both.2.other (others q both.1)
    obtain ⟨_, apartLast, apartFirst⟩ := List.pairwise_append.mp separate.apart
    refine ⟨written', inside', shared,
      List.rel_append (unnoticed ?_ front) (.cons ?_ (unnoticed ?_ back))⟩
    · intro q memQ
      rw [FileSystem.sameFile_comm]
      exact apartFirst q memQ p List.mem_cons_self
    · refine ⟨here.keeps.2 written, ?_, ?_⟩
      · rw [answers, ← alone]
        exact here.result
      · rw [answers, ← alone]
        exact here.after
    · exact (List.pairwise_cons.mp apartLast).1

theorem onTheWay_of_interleaved (separate : Batch.Separate env files)
    (run : Interleaved (start options env files) pool) : OnTheWay options env files pool := by
  induction run with
  | refl => exact onTheWay_start
  | tail _ step ih => exact ih.step separate step

/-- What a task does when it runs alone, for each file of the run, settles the files. -/
theorem overlay_eq_of_own (inside : Batch.WrittenIn env files written)
    (inside' : Batch.WrittenIn env files written')
    (same : ∀ p ∈ files, env.fs.overlay (env.own p written) = env.fs.overlay (env.own p written')) :
    env.fs.overlay written = env.fs.overlay written' := by
  have each : ∀ f ∈ env.fs.files, (written f.1).getD f.2 = (written' f.1).getD f.2 := by
    intro f mem
    by_cases touched : ∃ p ∈ files, env.fs.locate p = .ok f.1
    · obtain ⟨p, memP, here⟩ := touched
      have entries := congrArg FileSystem.files (same p memP)
      have entry := List.map_inj_left.mp entries f mem
      simpa [Environment.own_here here] using entry
    · have kept : written f.1 = none := by
        by_contra other
        obtain ⟨p, memP, here, _⟩ := inside f.1 other
        exact touched ⟨p, memP, here⟩
      have kept' : written' f.1 = none := by
        by_contra other
        obtain ⟨p, memP, here, _⟩ := inside' f.1 other
        exact touched ⟨p, memP, here⟩
      rw [kept, kept']
  simp only [FileSystem.overlay]
  congr 1
  apply List.map_congr_left
  intro f mem
  rw [each f mem]

def alone (options : BatchOptions) (env : Environment) (p : Path) : Outcome :=
  (Task.process options env.home? p).result env.fs

theorem OnTheWay.finished (onTheWay : OnTheWay options env files pool)
    (finished : pool.Finished outcomes) :
    outcomes = files.map (alone options env) ∧ ∃ written, Batch.WrittenIn env files written ∧
      pool.fs = env.fs.overlay written ∧ ∀ p ∈ files, env.fs.overlay (env.own p written) =
        (Task.process options env.home? p).after env.fs := by
  obtain ⟨written, inside, fs_eq, tasks⟩ := onTheWay
  rw [finished, List.forall₂_map_right_iff] at tasks
  have both : List.Forall₂ (fun p outcome => env.fs.overlay (env.own p written) =
      (Task.process options env.home? p).after env.fs ∧ alone options env p = outcome)
      files outcomes :=
    tasks.imp fun _ _ ahead => ⟨ahead.after, ahead.result.symm⟩
  obtain ⟨files_eq, outcomes_eq⟩ := (List.forall₂_and_left files outcomes).mp both
  refine ⟨?_, written, inside, fs_eq, files_eq⟩
  have outcomes_eq : List.Forall₂ (· = ·) (files.map (alone options env)) outcomes :=
    List.forall₂_map_left_iff.mpr outcomes_eq
  rw [List.forall₂_eq_eq_eq] at outcomes_eq
  exact outcomes_eq.symm

/-- However the calls are mixed, the outcomes and the files are the same in the end. -/
theorem finished_unique (separate : Batch.Separate env files)
    (run : Interleaved (start options env files) pool)
    (run' : Interleaved (start options env files) pool') {outcomes' : List Outcome}
    (finished : pool.Finished outcomes) (finished' : pool'.Finished outcomes') :
    outcomes = outcomes' ∧ pool.fs = pool'.fs := by
  obtain ⟨same, written, inside, fs_eq, each⟩ :=
    (onTheWay_of_interleaved separate run).finished finished
  obtain ⟨same', written', inside', fs_eq', each'⟩ :=
    (onTheWay_of_interleaved separate run').finished finished'
  refine ⟨same.trans same'.symm, ?_⟩
  rw [fs_eq, fs_eq']
  apply overlay_eq_of_own inside inside'
  intro p mem
  rw [each p mem, each' p mem]

end Pool

def Report.ofOutcomes (r : Report) (files : List Path) (outcomes : List Outcome) : Report :=
  (files.zip outcomes).foldl (fun r each => r.record each.1 each.2) r

theorem Batch.foldl_step_interleaved (options : BatchOptions) (b : Batch) (files : List Path)
    (before : List (Task Outcome)) : ∃ outcomes : List Outcome,
    Pool.Interleaved
        ⟨b.env.fs, b.printed, before ++ files.map (Task.process options b.env.home?)⟩
        ⟨(files.foldl (step options) b).env.fs, (files.foldl (step options) b).printed,
          before ++ outcomes.map .done⟩ ∧
      (files.foldl (step options) b).report = b.report.ofOutcomes files outcomes := by
  induction files generalizing b before with
  | nil => exact ⟨[], .refl, rfl⟩
  | cons p files ih =>
    have step_eq := Task.step_eq options b p
    have first := Pool.interleaved_run (Task.process options b.env.home? p) b.env.fs b.printed
      before (files.map (Task.process options b.env.home?))
    obtain ⟨outcomes, later, report_eq⟩ := ih (b.step options p)
      (before ++ [.done ((Task.process options b.env.home? p).result b.env.fs)])
    simp only [List.append_assoc, List.singleton_append] at later
    refine ⟨(Task.process options b.env.home? p).result b.env.fs :: outcomes, ?_, ?_⟩
    · rw [List.foldl_cons]
      rw [step_eq] at later ⊢
      exact first.trans later
    · rw [List.foldl_cons, report_eq, step_eq]
      rfl

end CSharpTidy
