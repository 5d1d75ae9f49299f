import CSharpTidy.Batch.Run
import CSharpTidy.Proofs.FileAccess

/- The work on one file as a program that calls the file system, one call at a time, so that the
   work on other files can come in between. Run without a break it is a step of a batch. -/
namespace CSharpTidy

inductive Call where
  | isFile (p : Path)
  | isDirectory (p : Path)
  | workingPath
  | size (p : Path)
  | readText (p : Path)
  | write (p : Path) (bytes : ByteArray)
  | print (text : List Char)

variable {c : Call}

namespace Call

def Answer : Call → Type
  | .isFile _ | .isDirectory _ => Bool
  | .workingPath => Path
  | .size _ => Except FileFault Nat
  | .readText _ => Except FileFault (List Char)
  | .write _ _ | .print _ => Unit

def answer (fs : FileSystem) : (c : Call) → c.Answer
  | .isFile p => fs.isFile p
  | .isDirectory p => fs.isDirectory p
  | .workingPath => fs.workingPath
  | .size p => fs.size p
  | .readText p => fs.readText p
  | .write _ _ | .print _ => ()

def after (fs : FileSystem) : Call → FileSystem
  | .write p bytes => fs.write p bytes
  | _ => fs

def printed : Call → List Char
  | .print text => text
  | _ => []

def asksKind : Call → Bool
  | .isFile _ | .isDirectory _ | .workingPath => true
  | _ => false

def isQuery : Call → Bool
  | .write _ _ | .print _ => false
  | _ => true

theorem after_of_isQuery (query : c.isQuery = true) (fs : FileSystem) :
    c.after fs = fs ∧ c.printed = [] := by
  cases c <;> first | exact ⟨rfl, rfl⟩ | cases query

theorem isQuery_of_asksKind (kind : c.asksKind = true) : c.isQuery = true := by
  cases c <;> first | rfl | cases kind

end Call

/-- What is still to do: nothing, with a result, or a call and what follows its answer. -/
inductive Task (α : Type) where
  | done (result : α)
  | call (c : Call) (next : c.Answer → Task α)

namespace Task

variable {α β σ : Type}

def bind : Task α → (α → Task β) → Task β
  | .done a, f => f a
  | .call c next, f => .call c fun answer => (next answer).bind f

instance : Monad Task where
  pure := .done
  bind := bind

def isFile (p : Path) : Task Bool :=
  .call (.isFile p) .done

def isDirectory (p : Path) : Task Bool :=
  .call (.isDirectory p) .done

def workingPath : Task Path :=
  .call .workingPath .done

def size (p : Path) : Task (Except FileFault Nat) :=
  .call (.size p) .done

def readText (p : Path) : Task (Except FileFault (List Char)) :=
  .call (.readText p) .done

def fold (f : σ → β → Task σ) (s : σ) : List β → Task σ
  | [] => pure s
  | b :: rest => do
      let s ← f s b
      fold f s rest

def result (fs : FileSystem) : Task α → α
  | .done a => a
  | .call c next => (next (c.answer fs)).result (c.after fs)

def after (fs : FileSystem) : Task α → FileSystem
  | .done _ => fs
  | .call c next => (next (c.answer fs)).after (c.after fs)

def printed (fs : FileSystem) : Task α → List Char
  | .done _ => []
  | .call c next => c.printed ++ (next (c.answer fs)).printed (c.after fs)

def addFile (listed : List Path) (directory : Path) : Task (List Path) := do
  let found ← isFile (directory.join configFileName)
  return if found && !listed.any (directory.join configFileName).same then
    listed ++ [directory.join configFileName] else listed

def startDirectory? (p : Path) : Task (Option Path) := do
  let file ← isFile p
  if file then return p.parent?
  else
    let directory ← isDirectory p
    if directory then return some p
    else
      let path ← workingPath
      return some path

def configFiles (home? : Option Path) (p : Path) : Task (List Path) := do
  let listed ← fold addFile [] home?.toList
  let start? ← startDirectory? p
  fold addFile listed ((start?.map Path.ancestors).getD [])

def layer (s : Settings) (file : Path) : Task Settings := do
  let content ← readText file
  return match content with
    | .error _ => s
    | .ok text => ((PartialSettings.parse? text).map s.apply).getD s

def settingsFor (home? : Option Path) (p : Path) :
    SettingsSource → Task (Except SettingsFault Settings)
  | .fixed settings => return .ok settings
  | .discovered overrides => do
      let files ← configFiles home? p
      let discovered ← fold layer {} files
      let settings := discovered.apply overrides
      return match settings.fault? with
        | some fault => .error fault
        | none => .ok settings

def settle (mode : Mode) (p : Path) (source text : List Char) : Task Outcome :=
  let outcome : Outcome := .organized (text != source)
  match mode with
  | .simulate => .call (.print (Batch.shown p text)) fun _ => .done outcome
  | .check => .done outcome
  | .write =>
      if text != source then .call (.write p (encodeText text)) fun _ => .done outcome
      else .done outcome

def organizeFile (options : BatchOptions) (settings : Settings) (p : Path) : Task Outcome := do
  let size ← size p
  match size with
  | .error fault => return .failed [fault.message]
  | .ok size =>
      if options.sizeLimit < size then
        return .ignored s!"{size / megabyte} MB exceeds limit of {options.sizeLimit / megabyte} MB"
      else
        let content ← readText p
        match content with
        | .error fault => return .failed [s!"failed to read {p.text}", fault.message]
        | .ok source =>
            match organizeSource settings source with
            | .error e => return .failed [e.message]
            | .ok .ignored => return .ignored "csorganize directive"
            | .ok (.text text) => settle options.mode p source text

def process (options : BatchOptions) (home? : Option Path) (p : Path) : Task Outcome := do
  let settings ← settingsFor home? p options.settings
  match settings with
  | .error fault => return .failed [invalidSettings fault]
  | .ok settings => organizeFile options settings p

section Runs

variable {fs : FileSystem} {t : Task α} {f : α → Task β}

@[simp] theorem result_pure (a : α) : (pure a : Task α).result fs = a := rfl

@[simp] theorem after_pure (a : α) : (pure a : Task α).after fs = fs := rfl

@[simp] theorem printed_pure (a : α) : (pure a : Task α).printed fs = [] := rfl

@[simp] theorem result_isFile (p : Path) : (isFile p).result fs = fs.isFile p := rfl

@[simp] theorem result_isDirectory (p : Path) : (isDirectory p).result fs = fs.isDirectory p := rfl

@[simp] theorem result_workingPath : workingPath.result fs = fs.workingPath := rfl

@[simp] theorem result_size (p : Path) : (size p).result fs = fs.size p := rfl

@[simp] theorem result_readText (p : Path) : (readText p).result fs = fs.readText p := rfl

@[simp] theorem after_isFile (p : Path) : (isFile p).after fs = fs := rfl

@[simp] theorem after_isDirectory (p : Path) : (isDirectory p).after fs = fs := rfl

@[simp] theorem after_size (p : Path) : (size p).after fs = fs := rfl

@[simp] theorem after_readText (p : Path) : (readText p).after fs = fs := rfl

@[simp] theorem printed_size (p : Path) : (size p).printed fs = [] := rfl

@[simp] theorem printed_readText (p : Path) : (readText p).printed fs = [] := rfl

@[simp] theorem result_bind : (t >>= f).result fs = (f (t.result fs)).result (t.after fs) := by
  induction t generalizing fs with
  | done a => rfl
  | call c next ih => exact ih (c.answer fs)

@[simp] theorem after_bind : (t >>= f).after fs = (f (t.result fs)).after (t.after fs) := by
  induction t generalizing fs with
  | done a => rfl
  | call c next ih => exact ih (c.answer fs)

@[simp] theorem printed_bind :
    (t >>= f).printed fs = t.printed fs ++ (f (t.result fs)).printed (t.after fs) := by
  induction t generalizing fs with
  | done a => rfl
  | call c next ih =>
    have later : (next (c.answer fs) >>= f).printed (c.after fs) = _ := ih (c.answer fs)
    simp only [printed, result, after, List.append_assoc, ← later]
    rfl

end Runs

def All (fits : Call → Prop) : Task α → Prop
  | .done _ => True
  | .call c next => fits c ∧ ∀ answer, (next answer).All fits

namespace All

variable {fs : FileSystem} {fits fits' : Call → Prop} {t : Task α} {f : α → Task β}

theorem imp (weaker : ∀ c, fits c → fits' c) (all : t.All fits) : t.All fits' := by
  induction t with
  | done a => exact trivial
  | call c next ih => exact ⟨weaker c all.1, fun answer => ih answer (all.2 answer)⟩

theorem pure (a : α) : (Pure.pure a : Task α).All fits := trivial

theorem call (h : fits c) : (Task.call c Task.done).All fits :=
  ⟨h, fun _ => trivial⟩

theorem bind (first : t.All fits) (later : ∀ a, (f a).All fits) : (t >>= f).All fits := by
  induction t with
  | done a => exact later a
  | call c next ih => exact ⟨first.1, fun answer => ih answer (first.2 answer)⟩

theorem fold {f : σ → β → Task σ} (each : ∀ s b, (f s b).All fits) (s : σ) (l : List β) :
    (Task.fold f s l).All fits := by
  induction l generalizing s with
  | nil => exact trivial
  | cons b rest ih => exact bind (each s b) fun s => ih s

theorem unchanged (asks : t.All fun c => c.isQuery = true) :
    t.after fs = fs ∧ t.printed fs = [] := by
  induction t generalizing fs with
  | done a => exact ⟨rfl, rfl⟩
  | call c next ih =>
    obtain ⟨query, later⟩ := asks
    obtain ⟨same, silent⟩ := Call.after_of_isQuery query fs
    obtain ⟨same', silent'⟩ : (next (c.answer fs)).after (c.after fs) = c.after fs ∧
        (next (c.answer fs)).printed (c.after fs) = [] := ih _ (later _)
    exact ⟨same'.trans same, by rw [printed, silent, silent']; rfl⟩

end All

abbrev AsksKinds (t : Task α) : Prop :=
  t.All fun c => c.asksKind = true

abbrev AsksOnly (t : Task α) : Prop :=
  t.All fun c => c.isQuery = true

theorem AsksKinds.asksOnly {t : Task α} (asks : t.AsksKinds) : t.AsksOnly :=
  All.imp (fun _ => Call.isQuery_of_asksKind) asks

theorem result_fold {fs : FileSystem} {f : σ → β → Task σ} (asks : ∀ s b, (f s b).AsksOnly)
    (s : σ) (l : List β) :
    (fold f s l).result fs = l.foldl (fun s b => (f s b).result fs) s := by
  induction l generalizing s with
  | nil => rfl
  | cons b rest ih =>
    rw [fold, result_bind, (asks s b).unchanged.1, ih]
    rfl

theorem addFile_asks (listed : List Path) (directory : Path) :
    (addFile listed directory).AsksKinds :=
  .bind (.call rfl) fun _ => .pure _

theorem startDirectory?_asks (p : Path) : (startDirectory? p).AsksKinds := by
  have file : (isFile p).AsksKinds := .call rfl
  have directory : (isDirectory p).AsksKinds := .call rfl
  have path : workingPath.AsksKinds := .call rfl
  apply file.bind
  intro found
  split
  · exact .pure _
  · apply directory.bind
    intro found
    split
    · exact .pure _
    · exact path.bind fun _ => .pure _

theorem configFiles_asks (home? : Option Path) (p : Path) : (configFiles home? p).AsksKinds :=
  .bind (.fold addFile_asks _ _) fun _ =>
    .bind (startDirectory?_asks p) fun _ => .fold addFile_asks _ _

theorem layer_asks (s : Settings) (file : Path) : (layer s file).AsksOnly :=
  .bind (.call rfl) fun _ => .pure _

theorem settingsFor_asks (home? : Option Path) (p : Path) (source : SettingsSource) :
    (settingsFor home? p source).AsksOnly := by
  cases source with
  | fixed settings => exact .pure _
  | discovered overrides =>
    exact .bind (configFiles_asks home? p).asksOnly fun _ =>
      .bind (.fold layer_asks _ _) fun _ => .pure _

section Results

variable (env : Environment) (p : Path)

theorem result_addFile (listed : List Path) (directory : Path) :
    (addFile listed directory).result env.fs =
      env.addFile listed (directory.join configFileName) := rfl

theorem result_startDirectory? :
    (startDirectory? p).result env.fs = env.startDirectory? p := by
  have file : env.fs.isFile p = (env.fs.kind? p == some .file) := rfl
  have directory : env.fs.isDirectory p = (env.fs.kind? p == some .directory) := rfl
  simp only [startDirectory?, result_bind, result_isFile, after_isFile, Environment.startDirectory?]
  cases kind : env.fs.kind? p with
  | none => simp [file, directory, kind]
  | some found => cases found <;> simp [file, directory, kind]

theorem result_configFiles :
    (configFiles env.home? p).result env.fs = env.configFiles p := by
  have adds : ∀ listed directory, (addFile listed directory).AsksOnly :=
    fun listed directory => (addFile_asks listed directory).asksOnly
  simp only [configFiles, result_bind, result_fold adds, result_startDirectory?,
    (All.fold adds _ _).unchanged, (startDirectory?_asks p).asksOnly.unchanged]
  simp only [Environment.configFiles, List.foldl_append, result_addFile]
  cases env.startDirectory? p <;> rfl

theorem result_layer (s : Settings) (file : Path) :
    (layer s file).result env.fs = env.layer s file := by
  simp only [layer, result_bind, result_readText, result_pure, Environment.layer,
    PartialSettings.load]
  cases env.fs.readText file with
  | error fault => rfl
  | ok text => cases parsed : PartialSettings.parse? text <;> simp [parsed]

theorem result_settingsFor (source : SettingsSource) :
    (settingsFor env.home? p source).result env.fs = env.settingsFor p source := by
  cases source with
  | fixed settings => rfl
  | discovered overrides =>
    simp only [settingsFor, result_bind, result_configFiles,
      (configFiles_asks env.home? p).asksOnly.unchanged, result_fold layer_asks, result_layer,
      (All.fold layer_asks _ _).unchanged, result_pure]
    rfl

end Results

theorem settle_eq (b : Batch) (mode : Mode) (p : Path) (source text : List Char) :
    b.settle mode p source text =
      { env := { b.env with fs := (settle mode p source text).after b.env.fs }
        report := b.report.record p ((settle mode p source text).result b.env.fs)
        printed := b.printed ++ (settle mode p source text).printed b.env.fs } := by
  cases mode with
  | check => simp [Batch.settle, settle, after, result, printed]
  | simulate => simp [Batch.settle, settle, after, result, printed, Call.after, Call.printed]
  | write =>
    cases changed : text != source with
    | false => simp [Batch.settle, settle, after, result, printed, changed]
    | true =>
      simp [Batch.settle, settle, after, result, printed, changed, Call.after, Call.printed]

theorem step_eq (options : BatchOptions) (b : Batch) (p : Path) :
    b.step options p =
      { env := { b.env with fs := (process options b.env.home? p).after b.env.fs }
        report := b.report.record p ((process options b.env.home? p).result b.env.fs)
        printed := b.printed ++ (process options b.env.home? p).printed b.env.fs } := by
  have asks := settingsFor_asks b.env.home? p options.settings
  simp only [Batch.step, process, result_bind, after_bind, printed_bind, asks.unchanged,
    result_settingsFor]
  cases b.env.settingsFor p options.settings with
  | error fault => simp
  | ok settings =>
    simp only [FileSystem.organizeFile, organizeFile, result_bind, result_size, after_bind,
      after_size, printed_bind, printed_size]
    cases b.env.fs.size p with
    | error fault => simp
    | ok size =>
      by_cases large : options.sizeLimit < size
      · simp [large]
      · simp only [large, if_false, result_bind, result_readText, after_bind, after_readText,
          printed_bind, printed_readText]
        cases b.env.fs.readText p with
        | error fault => simp
        | ok source =>
          cases organized : organizeSource settings source with
          | error e => simp [organized]
          | ok what =>
            cases what with
            | ignored => simp [organized]
            | text text => simp [organized, settle_eq]

end Task

/-- The calls that the work on a file makes: it reads the file and its configuration files, and
writes the file itself, once it is known to be there. -/
def Call.Fits (env : Environment) (p : Path) : Call → Prop
  | .size q | .readText q => q = p ∨ q ∈ env.configFiles p
  | .write q _ => q = p ∧ env.fs.isFile p = true
  | _ => True

theorem Call.fits_of_asksKind {env : Environment} {p : Path} (kind : c.asksKind = true) :
    c.Fits env p := by
  cases c <;> first | exact trivial | cases kind

theorem Call.answer_overlay {fs : FileSystem} {written : Location → Option ByteArray}
    (kind : c.asksKind = true) : c.answer (fs.overlay written) = c.answer fs := by
  cases c with
  | isFile p => exact FileSystem.isFile_overlay
  | isDirectory p => exact FileSystem.isDirectory_overlay
  | workingPath => rfl
  | size p => cases kind
  | readText p => cases kind
  | write p bytes => cases kind
  | print text => cases kind

namespace Task

variable {α β σ : Type}

/-- Every call on the way to a result fits, and so does the result, whatever bytes the files
have when they are read. -/
def Keeps (fs : FileSystem) (fits : Call → Prop) (ends : α → Prop) : Task α → Prop
  | .done a => ends a
  | .call c next =>
      fits c ∧ ∀ written, (next (c.answer (fs.overlay written))).Keeps fs fits ends

namespace Keeps

variable {fs : FileSystem} {fits : Call → Prop} {ends : α → Prop} {ends' : β → Prop} {t : Task α}
  {f : α → Task β}

theorem bind (first : t.Keeps fs fits ends) (later : ∀ a, ends a → (f a).Keeps fs fits ends') :
    (t >>= f).Keeps fs fits ends' := by
  induction t with
  | done a => exact later a first
  | call c next ih => exact ⟨first.1, fun written => ih _ (first.2 written)⟩

theorem fold {f : σ → β → Task σ} {l : List β}
    (each : ∀ b ∈ l, ∀ s, (f s b).Keeps fs fits fun _ => True) (s : σ) :
    (Task.fold f s l).Keeps fs fits fun _ => True := by
  induction l generalizing s with
  | nil => exact trivial
  | cons b rest ih =>
    apply bind (each b List.mem_cons_self s)
    intro s' _
    exact ih (fun b mem => each b (List.mem_cons_of_mem _ mem)) s'

theorem of_asksKinds (asks : t.AsksKinds) (kinds : ∀ c, c.asksKind = true → fits c) :
    t.Keeps fs fits fun a => a = t.result fs := by
  induction t with
  | done a => exact rfl
  | call c next ih =>
    refine ⟨kinds c asks.1, ?_⟩
    intro written
    rw [Call.answer_overlay asks.1, result,
      (Call.after_of_isQuery (Call.isQuery_of_asksKind asks.1) fs).1]
    exact ih _ (asks.2 _)

end Keeps

variable (options : BatchOptions) (env : Environment) (p : Path)

theorem settingsFor_keeps (source : SettingsSource) :
    (settingsFor env.home? p source).Keeps env.fs (Call.Fits env p) fun _ => True := by
  cases source with
  | fixed settings => exact trivial
  | discovered overrides =>
    apply Keeps.bind (Keeps.of_asksKinds (configFiles_asks env.home? p)
      fun _ => Call.fits_of_asksKind)
    intro files found
    rw [result_configFiles] at found
    subst found
    have layers : ∀ file ∈ env.configFiles p, ∀ s,
        (layer s file).Keeps env.fs (Call.Fits env p) fun _ => True :=
      fun file mem s => ⟨.inr mem, fun _ => trivial⟩
    exact (Keeps.fold layers {}).bind fun _ _ => trivial

theorem settle_keeps (mode : Mode) (source text : List Char) (present : env.fs.isFile p = true) :
    (settle mode p source text).Keeps env.fs (Call.Fits env p) fun _ => True := by
  cases mode with
  | check => exact trivial
  | simulate => exact ⟨trivial, fun _ => trivial⟩
  | write =>
    unfold settle
    dsimp only
    split
    · exact ⟨⟨rfl, present⟩, fun _ => trivial⟩
    · exact trivial

theorem organizeFile_keeps (settings : Settings) :
    (organizeFile options settings p).Keeps env.fs (Call.Fits env p) fun _ => True := by
  have size : (Task.size p).Keeps env.fs (Call.Fits env p) fun _ => True :=
    ⟨.inl rfl, fun _ => trivial⟩
  apply size.bind
  rintro (fault | size) _
  · exact trivial
  · dsimp only
    split
    · exact trivial
    · have read : (Task.readText p).Keeps env.fs (Call.Fits env p) fun content =>
          ∀ text, content = .ok text → env.fs.isFile p = true := by
        refine ⟨.inl rfl, ?_⟩
        intro written text done
        obtain ⟨bytes, read, _⟩ := FileSystem.readText_eq_ok done
        have found := FileSystem.isFile_of_read read
        rwa [FileSystem.isFile_overlay] at found
      apply read.bind
      rintro (fault | source) present
      · exact trivial
      · dsimp only
        split
        · exact trivial
        · exact trivial
        · exact settle_keeps env p _ _ _ (present source rfl)

theorem process_keeps :
    (process options env.home? p).Keeps env.fs (Call.Fits env p) fun _ => True := by
  apply (settingsFor_keeps env p options.settings).bind
  rintro (fault | settings) _
  · exact trivial
  · exact organizeFile_keeps options env p settings

end Task

end CSharpTidy
