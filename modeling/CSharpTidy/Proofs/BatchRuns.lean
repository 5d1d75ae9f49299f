import CSharpTidy.Proofs.Interleaving

/- Runs over files that are apart from each other and from the configuration files. The report and
   the files in the end do not hang on the order of the work, the report is the same in every mode,
   and it names exactly the files that a writing run changes. -/
namespace CSharpTidy

namespace Report

/-- Every file has one place in the report, and the lists keep the order of the files. -/
structure Covers (r : Report) (files : List Path) : Prop where
  organized : r.organized.Sublist files
  changed : r.changed.Sublist r.organized
  ignored : (r.ignored.map Prod.fst).Sublist files
  failed : (r.failed.map Prod.fst).Sublist files
  each : (r.organized ++ r.ignored.map Prod.fst ++ r.failed.map Prod.fst).Perm files

variable {r : Report} {files : List Path}

theorem covers_nothing : ({} : Report).Covers [] :=
  ⟨.slnil, .slnil, .slnil, .slnil, .nil⟩

theorem Covers.record (covers : r.Covers files) (p : Path) (outcome : Outcome) :
    (r.record p outcome).Covers (files ++ [p]) := by
  obtain ⟨organized, changed, ignored, failed, each⟩ := covers
  have grown := each.append_right [p]
  have kept : files.Sublist (files ++ [p]) := List.sublist_append_left _ _
  cases outcome with
  | organized other =>
    refine ⟨organized.append_right [p], ?_, ignored.trans kept, failed.trans kept, ?_⟩
    · cases other with
      | true => exact changed.append_right [p]
      | false => exact changed.trans (List.sublist_append_left _ _)
    · refine List.Perm.trans ?_ grown
      simp only [Report.record, List.append_assoc]
      apply List.Perm.append_left
      rw [← List.append_assoc (r.ignored.map Prod.fst)]
      exact List.perm_append_comm
  | ignored reason =>
    refine ⟨organized.trans kept, changed, ?_, failed.trans kept, ?_⟩
    · simpa [Report.record] using ignored.append_right [p]
    · refine List.Perm.trans ?_ grown
      simp only [Report.record, List.map_append, List.append_assoc]
      exact ((List.perm_append_comm).append_left _).append_left _
  | failed causes =>
    refine ⟨organized.trans kept, changed, ignored.trans kept, ?_, ?_⟩
    · simpa [Report.record] using failed.append_right [p]
    · simpa [Report.record] using grown

theorem Covers.ofOutcomes {before : List Path} (covers : r.Covers before) {outcomes : List Outcome}
    (length_eq : files.length = outcomes.length) :
    (r.ofOutcomes files outcomes).Covers (before ++ files) := by
  induction files generalizing r before outcomes with
  | nil => simpa [Report.ofOutcomes] using covers
  | cons p files ih =>
    cases outcomes with
    | nil => cases length_eq
    | cons outcome outcomes =>
      have later := ih (covers.record p outcome) (Nat.succ.inj length_eq)
      rwa [List.append_assoc] at later

theorem changed_ofOutcomes (f : Path → Outcome) :
    (r.ofOutcomes files (files.map f)).changed =
      r.changed ++ files.filter fun p => f p = .organized true := by
  induction files generalizing r with
  | nil => simp [ofOutcomes]
  | cons p files ih =>
    have later := ih (r := r.record p (f p))
    have changed : (r.record p (f p)).changed =
        r.changed ++ [p].filter fun p => f p = .organized true := by
      cases found : f p with
      | organized other => cases other <;> simp [record, found]
      | ignored reason => simp [record, found]
      | failed causes => simp [record, found]
    rw [changed, List.append_assoc, ← List.filter_append] at later
    exact later

theorem Covers.not_changed (covers : r.Covers files) (distinct : files.Nodup) {p : Path}
    (left : p ∈ r.ignored.map Prod.fst ∨ p ∈ r.failed.map Prod.fst) : p ∉ r.changed := by
  have once := covers.each.nodup_iff.mpr distinct
  rw [List.append_assoc] at once
  intro mem
  apply (List.nodup_append.mp once).2.2 p (covers.changed.subset mem) p _ rfl
  exact List.mem_append.mpr left

end Report

namespace Task

/-- Left alone, a task does not touch the files, or it writes a text other than what it read to
the file of its path. -/
inductive Effect (mode : Mode) (fs : FileSystem) (p : Path) (t : Task Outcome) : Prop
  | untouched (same : t.after fs = fs) (unchanged : mode = .write → t.result fs ≠ .organized true)
  | rewritten {source text : List Char} (writing : mode = .write)
      (changed : t.result fs = .organized true) (read : fs.readText p = .ok source)
      (other : text ≠ source) (wrote : t.after fs = fs.write p (encodeText text))

variable {α : Type} {mode : Mode} {fs : FileSystem} {p : Path} {t : Task Outcome}

theorem Effect.bind {t : Task α} {f : α → Task Outcome} (asks : t.AsksOnly)
    (later : (f (t.result fs)).Effect mode fs p) : (t >>= f).Effect mode fs p := by
  have same : t.after fs = fs := asks.unchanged.1
  have after_eq : (t >>= f).after fs = (f (t.result fs)).after fs := by rw [after_bind, same]
  have result_eq : (t >>= f).result fs = (f (t.result fs)).result fs := by rw [result_bind, same]
  cases later with
  | untouched unmoved unchanged =>
    apply Effect.untouched (after_eq.trans unmoved)
    rwa [result_eq]
  | rewritten writing changed read other wrote =>
    exact .rewritten writing (result_eq.trans changed) read other (after_eq.trans wrote)

theorem settle_effect {source : List Char} (read : fs.readText p = .ok source) (text : List Char) :
    (settle mode p source text).Effect mode fs p := by
  cases mode with
  | check | simulate => exact .untouched rfl (by simp)
  | write =>
    by_cases same : text = source
    · apply Effect.untouched <;> simp [settle, same, result, after]
    · apply Effect.rewritten rfl _ read same <;> simp [settle, same, result, after, Call.after]

theorem organizeFile_effect (options : BatchOptions) (settings : Settings) :
    (organizeFile options settings p).Effect options.mode fs p := by
  have size : (Task.size p).AsksOnly := .call rfl
  have read : (Task.readText p).AsksOnly := .call rfl
  apply Effect.bind size
  split
  · exact .untouched rfl (by simp)
  · split
    · exact .untouched rfl (by simp)
    · apply Effect.bind read
      rw [result_readText]
      split
      · exact .untouched rfl (by simp)
      · rename_i source found
        split
        · exact .untouched rfl (by simp)
        · exact .untouched rfl (by simp)
        · exact settle_effect found _

theorem process_effect (fs : FileSystem) (p : Path) (options : BatchOptions) (home? : Option Path) :
    (process options home? p).Effect options.mode fs p := by
  apply Effect.bind (settingsFor_asks home? p options.settings)
  split
  · exact .untouched rfl (by simp)
  · exact organizeFile_effect options _

theorem Effect.read_ne_iff (effect : t.Effect .write fs p) :
    (t.after fs).read p ≠ fs.read p ↔ t.result fs = .organized true := by
  cases effect with
  | untouched same unchanged => simp [same, unchanged rfl]
  | @rewritten source text _ changed read other wrote =>
    obtain ⟨bytes, content, decoded⟩ := FileSystem.readText_eq_ok read
    rw [wrote, FileSystem.read_write content, content]
    simp only [changed, iff_true]
    intro same
    have decoded' := decodeText_encodeText text
    rw [Except.ok.inj same, decoded] at decoded'
    exact other (Except.ok.inj decoded').symm

theorem result_settle (source text : List Char) :
    (settle mode p source text).result fs = .organized (text != source) := by
  cases mode with
  | check => rfl
  | simulate => rfl
  | write => cases changed : text != source <;> simp [settle, changed, result]

theorem result_process_mode (options : BatchOptions) (mode : Mode) (home? : Option Path) :
    (process { options with mode } home? p).result fs = (process options home? p).result fs := by
  simp only [process, result_bind, (settingsFor_asks home? p options.settings).unchanged.1]
  split
  · rfl
  · simp only [organizeFile, result_bind, result_size, after_size]
    split
    · rfl
    · split
      · rfl
      · simp only [result_bind, result_readText, after_readText]
        split
        · rfl
        · split
          · rfl
          · rfl
          · rw [result_settle, result_settle]

end Task

namespace Batch

variable {options : BatchOptions} {env : Environment} {files : List Path}

theorem run_interleaved (options : BatchOptions) (env : Environment) (files : List Path) :
    ∃ outcomes : List Outcome,
      Pool.Interleaved (Pool.start options env files)
        ⟨(run options env files).env.fs, (run options env files).printed, outcomes.map .done⟩ ∧
      (run options env files).report = Report.ofOutcomes {} files outcomes :=
  foldl_step_interleaved options { env } files []

theorem run_of_interleaved (separate : Separate env files) {pool : Pool} {outcomes : List Outcome}
    (mixed : Pool.Interleaved (Pool.start options env files) pool)
    (finished : pool.Finished outcomes) :
    pool.fs = (run options env files).env.fs ∧
      Report.ofOutcomes {} files outcomes = (run options env files).report := by
  obtain ⟨inOrder, ordered, report_eq⟩ := run_interleaved options env files
  obtain ⟨outcomes_eq, fs_eq⟩ := Pool.finished_unique separate mixed ordered finished rfl
  exact ⟨fs_eq, by rw [outcomes_eq, report_eq]⟩

theorem run_alone (options : BatchOptions) (separate : Separate env files) :
    (run options env files).report =
        Report.ofOutcomes {} files (files.map (Pool.alone options env)) ∧
      ∃ written, WrittenIn env files written ∧
        (run options env files).env.fs = env.fs.overlay written ∧
        ∀ p ∈ files, env.fs.overlay (env.own p written) =
          (Task.process options env.home? p).after env.fs := by
  obtain ⟨outcomes, ordered, report_eq⟩ := run_interleaved options env files
  obtain ⟨outcomes_eq, rest⟩ := (Pool.onTheWay_of_interleaved separate ordered).finished rfl
  rw [outcomes_eq] at report_eq
  exact ⟨report_eq, rest⟩

theorem foldl_step_unchanged (reading : options.mode ≠ .write) (b : Batch) :
    (files.foldl (step options) b).env.fs = b.env.fs := by
  induction files generalizing b with
  | nil => rfl
  | cons p files ih =>
    rw [List.foldl_cons, ih, Task.step_eq]
    cases Task.process_effect b.env.fs p options b.env.home? with
    | untouched same _ => exact same
    | rewritten writing => exact absurd writing reading

theorem read_run_ne_iff (separate : Separate env files) (writing : options.mode = .write) {p : Path}
    (mem : p ∈ files) : (run options env files).env.fs.read p ≠ env.fs.read p ↔
      p ∈ (run options env files).report.changed := by
  obtain ⟨report_eq, written, inside, fs_eq, each⟩ := run_alone options separate
  have effect := Task.process_effect env.fs p options env.home?
  rw [writing] at effect
  have changed : _ ↔ Pool.alone options env p = .organized true := effect.read_ne_iff
  rw [report_eq, Report.changed_ofOutcomes, fs_eq, Call.read_own separate inside mem (.inl rfl),
    each p mem, changed]
  simp [mem]

theorem run_covers (options : BatchOptions) (separate : Separate env files) :
    (run options env files).report.Covers files := by
  rw [(run_alone options separate).1]
  exact Report.covers_nothing.ofOutcomes (by simp)

theorem read_run_ne_iff_sameFile (separate : Separate env files) (writing : options.mode = .write)
    (q : Path) : (run options env files).env.fs.read q ≠ env.fs.read q ↔
      ∃ p ∈ (run options env files).report.changed, env.fs.sameFile p q = true := by
  obtain ⟨_, written, inside, fs_eq, _⟩ := run_alone options separate
  have alike : ∀ p, env.fs.locate p = env.fs.locate q →
      ((run options env files).env.fs.read p ≠ env.fs.read p ↔
        (run options env files).env.fs.read q ≠ env.fs.read q) := by
    intro p same
    have same' : (env.fs.overlay written).locate p = (env.fs.overlay written).locate q := by
      rw [FileSystem.locate_overlay, FileSystem.locate_overlay, same]
    rw [fs_eq, FileSystem.read_of_locate same, FileSystem.read_of_locate same']
  constructor
  · intro other
    have touched : ∃ l, env.fs.locate q = .ok l ∧ written l ≠ none := by
      by_contra untouched
      apply other
      have kept : ∀ l, env.fs.locate q = .ok l → written l = none := by
        intro l located
        by_contra some
        exact untouched ⟨l, located, some⟩
      rw [fs_eq, FileSystem.read_overlay_congr kept, FileSystem.overlay_none]
    obtain ⟨l, there, wrote⟩ := touched
    obtain ⟨p, mem, here, present⟩ := inside l wrote
    refine ⟨p, (read_run_ne_iff separate writing mem).mp ?_,
      FileSystem.sameFile_iff.mpr ⟨l, here, there, present⟩⟩
    exact (alike p (here.trans there.symm)).mpr other
  · rintro ⟨p, changed, same⟩
    obtain ⟨l, here, there, _⟩ := FileSystem.sameFile_iff.mp same
    have covers := run_covers options separate
    have mem : p ∈ files := covers.organized.subset (covers.changed.subset changed)
    exact (alike p (here.trans there.symm)).mp ((read_run_ne_iff separate writing mem).mpr changed)

/-- Work on files that are apart may be mixed in any way and is never stuck: in the end the files and
the report are those of a run in order. Each file is reported once, in the order of the run. A run
that only checks or shows leaves all files alone. A writing run makes exactly those paths read
otherwise that lead to a file it reports as changed. The report does not hang on the mode. -/
theorem run_separate (options : BatchOptions) (env : Environment) (files : List Path)
    (separate : Separate env files) :
    (∀ pool, Pool.Interleaved (Pool.start options env files) pool →
      (∃ pool' outcomes, Pool.Interleaved pool pool' ∧ pool'.Finished outcomes) ∧
        ∀ outcomes, pool.Finished outcomes →
          pool.fs = (run options env files).env.fs ∧
            Report.ofOutcomes {} files outcomes = (run options env files).report) ∧
      (run options env files).report.Covers files ∧
      (options.mode ≠ .write → (run options env files).env.fs = env.fs) ∧
      (options.mode = .write →
        (∀ p ∈ files, (run options env files).env.fs.read p ≠ env.fs.read p ↔
          p ∈ (run options env files).report.changed) ∧
        (∀ q, (run options env files).env.fs.read q ≠ env.fs.read q ↔
          ∃ p ∈ (run options env files).report.changed, env.fs.sameFile p q = true) ∧
        ∀ p, p ∈ (run options env files).report.ignored.map Prod.fst ∨
            p ∈ (run options env files).report.failed.map Prod.fst →
          (run options env files).env.fs.read p = env.fs.read p) ∧
      ∀ mode, (run { options with mode } env files).report = (run options env files).report := by
  have covers := run_covers options separate
  refine ⟨?_, covers, ?_, ?_, ?_⟩
  · intro pool mixed
    refine ⟨Pool.exists_finished pool.fs pool.printed [] pool.tasks, ?_⟩
    intro outcomes finished
    exact run_of_interleaved separate mixed finished
  · intro reading
    exact foldl_step_unchanged reading { env }
  · intro writing
    refine ⟨fun p mem => read_run_ne_iff separate writing mem,
      read_run_ne_iff_sameFile separate writing, ?_⟩
    intro p left
    have mem : p ∈ files := left.elim (covers.ignored.subset ·) (covers.failed.subset ·)
    by_contra other
    have changed := (read_run_ne_iff separate writing mem).mp other
    exact covers.not_changed separate.distinct left changed
  · intro mode
    rw [(run_alone options separate).1, (run_alone { options with mode } separate).1]
    congr 1
    apply List.map_congr_left
    intro p _
    exact Task.result_process_mode options mode env.home?

def folder : Environment where
  fs := ⟨["w"], [(["w", "csorganize.toml"], encodeText "line_ending = \"lf\"\n".toList),
    (["w", "lib", "A.cs"], encodeText "class C{}".toList),
    (["w", "B.cs"], encodeText "// csorganize: ignore\nclass D{}".toList)], []⟩

theorem run_separate_folder :
    Separate folder [⟨"lib/A.cs"⟩, ⟨"B.cs"⟩] ∧
      (run ⟨.discovered {}, .write, maxFileSize⟩ folder [⟨"lib/A.cs"⟩, ⟨"B.cs"⟩]).report =
        { organized := [⟨"lib/A.cs"⟩], changed := [⟨"lib/A.cs"⟩]
          ignored := [(⟨"B.cs"⟩, "csorganize directive")] } ∧
      (run ⟨.discovered {}, .write, maxFileSize⟩ folder
        [⟨"lib/A.cs"⟩, ⟨"B.cs"⟩]).env.fs.read ⟨"lib/A.cs"⟩ ≠ folder.fs.read ⟨"lib/A.cs"⟩ ∧
      (run ⟨.discovered {}, .write, maxFileSize⟩ folder
        [⟨"lib/A.cs"⟩, ⟨"B.cs"⟩]).env.fs.read ⟨"B.cs"⟩ = folder.fs.read ⟨"B.cs"⟩ := by
  have separate : Separate folder [⟨"lib/A.cs"⟩, ⟨"B.cs"⟩] :=
    ⟨by decide, by decide +kernel, by decide +kernel⟩
  have report_eq : (run ⟨.discovered {}, .write, maxFileSize⟩ folder
      [⟨"lib/A.cs"⟩, ⟨"B.cs"⟩]).report =
        { organized := [⟨"lib/A.cs"⟩], changed := [⟨"lib/A.cs"⟩]
          ignored := [(⟨"B.cs"⟩, "csorganize directive")] } := by decide +kernel
  obtain ⟨_, _, _, writes, _⟩ :=
    run_separate ⟨.discovered {}, .write, maxFileSize⟩ folder _ separate
  obtain ⟨changed, _, left⟩ := writes rfl
  refine ⟨separate, report_eq, (changed _ (by simp)).mpr ?_, left _ (.inl ?_)⟩
  · simp [report_eq]
  · simp [report_eq]

end Batch

end CSharpTidy
