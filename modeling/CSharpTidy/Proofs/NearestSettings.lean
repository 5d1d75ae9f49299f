import CSharpTidy.Proofs.FileAccess
import CSharpTidy.Proofs.PathComponents
import CSharpTidy.Settings.Discovery

/- The nearest configuration file has the last word. The files above a path are listed by depth,
   but one that is also the file of the home directory keeps the first place, and with it yields
   to those further out. -/
namespace CSharpTidy

def Path.configFile (directory : Path) : Path :=
  directory.join configFileName

theorem isName_configFileName : Path.IsName configFileName := by
  constructor <;> decide

theorem Path.components_configFile (directory : Path) :
    directory.configFile.components = directory.components ++ [.name configFileName.toList] :=
  components_join isName_configFileName directory

theorem Path.same_iff {p q : Path} : p.same q = true ↔ p.components = q.components := by
  simp [same]

variable {directory a b : Path}

theorem Path.configFile_apart (deeper : a.depth < b.depth) :
    b.configFile.same a.configFile = false := by
  rw [← Bool.not_eq_true, same_iff, components_configFile, components_configFile]
  intro equal
  have lengths := congrArg List.length (List.append_cancel_right equal)
  simp only [depth] at deeper
  omega

namespace Environment

variable (env : Environment) (p : Path)

def above : List Path :=
  match env.startDirectory? p with
  | some directory => directory.ancestors
  | none => []

def holds (directory : Path) : Bool :=
  env.fs.isFile directory.configFile

def homeFile? : Option Path :=
  (env.home?.filter env.holds).map Path.configFile

/-- The configuration file of the directory is also that of the home directory. -/
def isHome (directory : Path) : Bool :=
  env.homeFile?.any directory.configFile.same

theorem above_pairwise : (env.above p).Pairwise fun a b => a.depth < b.depth := by
  unfold above
  split
  · exact Path.ancestors_pairwise _
  · exact .nil

def adds (listed : List Path) (directory : Path) : Bool :=
  env.holds directory && !listed.any directory.configFile.same

theorem adds_append {listed : List Path} (deeper : a.depth < b.depth) :
    env.adds (listed ++ [a.configFile]) b = env.adds listed b := by
  simp [adds, Path.configFile_apart deeper]

theorem foldl_addFile {directories : List Path}
    (deeper : directories.Pairwise fun a b => a.depth < b.depth) (listed : List Path) :
    directories.foldl (fun listed directory => env.addFile listed directory.configFile) listed =
      listed ++ (directories.filter (env.adds listed)).map Path.configFile := by
  induction directories generalizing listed with
  | nil => simp
  | cons first rest ih =>
    obtain ⟨before, deeper⟩ := List.pairwise_cons.mp deeper
    have added : env.addFile listed first.configFile =
        if env.adds listed first then listed ++ [first.configFile] else listed := rfl
    rw [List.foldl_cons, added, ih deeper]
    by_cases first_adds : env.adds listed first = true
    · have unchanged : rest.filter (env.adds (listed ++ [first.configFile])) =
          rest.filter (env.adds listed) :=
        List.filter_congr fun directory mem => env.adds_append (before directory mem)
      simp [first_adds, unchanged]
    · simp [first_adds]

theorem configFiles_eq : env.configFiles p = env.homeFile?.toList ++
    ((env.above p).filter fun d => env.holds d && !env.isHome d).map Path.configFile := by
  have first : env.home?.toList.foldl
      (fun listed directory => env.addFile listed directory.configFile) [] =
        env.homeFile?.toList := by
    rw [homeFile?]
    cases env.home? with
    | none => rfl
    | some home =>
      have added : env.addFile [] home.configFile =
          if env.adds [] home then [home.configFile] else [] := rfl
      cases held : env.holds home <;> simp [Option.filter, added, adds, held]
  have files : env.configFiles p = (env.home?.toList ++ env.above p).foldl
      (fun listed directory => env.addFile listed directory.configFile) [] := rfl
  rw [files, List.foldl_append, first, env.foldl_addFile (env.above_pairwise p)]
  congr 3
  funext directory
  cases found : env.homeFile? <;> simp [adds, isHome, found]

def Earlier (a b : Path) (files : List Path) : Prop :=
  ∃ front back, files = front ++ back ∧ (∃ f ∈ front, a.same f = true) ∧ ∃ f ∈ back, b.same f = true

/-- Of two directories the file of the deeper one is listed later. -/
def OuterFirst : Prop :=
  ∀ a ∈ env.above p, ∀ b ∈ env.above p, a.depth < b.depth → env.holds a = true →
    env.holds b = true → Earlier a.configFile b.configFile (env.configFiles p)

/-- Where the home directory is above a path, nothing further out has a configuration file. -/
def HomeOutermost : Prop :=
  ∀ a ∈ env.above p, ∀ b ∈ env.above p, a.depth < b.depth → env.isHome b = true →
    env.holds a = false

variable {env p}

theorem homeFile?_eq_some {f : Path} (found : env.homeFile? = some f) :
    ∃ home, env.home? = some home ∧ f = home.configFile ∧ env.holds home = true := by
  obtain ⟨home, filtered, rfl⟩ := Option.map_eq_some_iff.mp found
  obtain ⟨named, held⟩ := Option.filter_eq_some_iff.mp filtered
  exact ⟨home, named, rfl, held⟩

theorem locate_configFile (same : a.configFile.same b.configFile = true) :
    env.fs.locate a.configFile = env.fs.locate b.configFile :=
  env.fs.locate_eq_of_components (Path.endsInComponent_join isName_configFileName a)
    (Path.endsInComponent_join isName_configFileName b) (Path.same_iff.mp same)

theorem holds_of_isHome (isHome : env.isHome directory = true) : env.holds directory = true := by
  obtain ⟨f, found, same⟩ := Option.any_eq_true _ _ |>.mp isHome
  obtain ⟨home, _, rfl, held⟩ := homeFile?_eq_some found
  simp only [holds, FileSystem.isFile, FileSystem.kind?, locate_configFile same] at *
  exact held

theorem mem_rest (mem : directory ∈ env.above p) (held : env.holds directory = true)
    (away : env.isHome directory = false) :
    directory ∈ (env.above p).filter fun d => env.holds d && !env.isHome d := by
  simp [mem, held, away]

theorem outerFirst_of_homeOutermost (outermost : env.HomeOutermost p) : env.OuterFirst p := by
  intro a memA b memB deeper heldA heldB
  have awayB : env.isHome b = false := by
    rw [← Bool.not_eq_true]
    intro isHome
    have := outermost a memA b memB deeper isHome
    simp_all
  have restB := mem_rest memB heldB awayB
  rw [configFiles_eq]
  cases homeA : env.isHome a with
  | true =>
    refine ⟨_, _, rfl, ?_, b.configFile, List.mem_map_of_mem restB, Path.same_iff.mpr rfl⟩
    obtain ⟨f, found, same⟩ := Option.any_eq_true _ _ |>.mp homeA
    exact ⟨f, by simp [found], same⟩
  | false =>
    have restA := mem_rest memA heldA homeA
    have ordered := (env.above_pairwise p).filter fun d => env.holds d && !env.isHome d
    generalize (env.above p).filter (fun d => env.holds d && !env.isHome d) = rest at *
    obtain ⟨front, back, rfl⟩ := List.append_of_mem restB
    refine ⟨env.homeFile?.toList ++ front.map Path.configFile, (b :: back).map Path.configFile,
      by simp, ⟨a.configFile, ?_, Path.same_iff.mpr rfl⟩, b.configFile, by simp,
      Path.same_iff.mpr rfl⟩
    have before : a ∈ front := by
      rcases List.mem_append.mp restA with before | after
      · exact before
      · have ordered := (List.pairwise_append.mp ordered).2.1
        rcases List.mem_cons.mp after with same | after
        · subst same; omega
        · have := (List.pairwise_cons.mp ordered).1 a after
          omega
    exact List.mem_append_right _ (List.mem_map_of_mem before)

theorem not_earlier_home (isHome : env.isHome b = true) :
    ¬ Earlier a b.configFile (env.configFiles p) := by
  rintro ⟨front, back, split, ⟨f, memF, _⟩, g, memG, same⟩
  obtain ⟨home, found, sameHome⟩ := Option.any_eq_true _ _ |>.mp isHome
  rw [configFiles_eq, found, Option.toList_some, List.singleton_append] at split
  cases front with
  | nil => cases memF
  | cons first front =>
    obtain ⟨_, rest⟩ := List.cons.inj split
    have listed : g ∈ ((env.above p).filter fun d => env.holds d && !env.isHome d).map
        Path.configFile := by
      rw [rest]
      exact List.mem_append_right _ memG
    obtain ⟨directory, mem, rfl⟩ := List.mem_map.mp listed
    have away := (List.mem_filter.mp mem).2
    have again : env.isHome directory = true := by
      rw [Environment.isHome, found]
      simp only [Option.any_some]
      rw [Path.same_iff] at *
      exact same.symm.trans sameHome
    simp [again] at away

theorem outerFirst_iff : env.OuterFirst p ↔ env.HomeOutermost p := by
  constructor
  · intro ordered a memA b memB deeper isHome
    rw [← Bool.not_eq_true]
    intro heldA
    exact not_earlier_home isHome (ordered a memA b memB deeper heldA (holds_of_isHome isHome))
  · exact outerFirst_of_homeOutermost

end Environment

def PartialSettings.collect
    (pick : {α : Type} → (PartialSettings → Option α) → Option α) : PartialSettings where
  standardPrefixes := pick PartialSettings.standardPrefixes
  lineEnding := pick PartialSettings.lineEnding
  definedSymbols := pick PartialSettings.definedSymbols
  exclude := pick PartialSettings.exclude
  extensions := pick PartialSettings.extensions

namespace Environment

/-- What a configuration file that can be used sets a field to. -/
def given {α : Type} (env : Environment) (field : PartialSettings → Option α) (file : Path) :
    Option α :=
  match PartialSettings.load env.fs file with
  | .ok settings => field settings
  | .error _ => none

/-- Of directories by depth, what the file of the deepest sets a field to that sets it. -/
def deepest? {α : Type} (env : Environment) (field : PartialSettings → Option α)
    (directories : List Path) : Option α :=
  directories.reverse.findSome? fun directory => env.given field directory.configFile

def homeGiven? {α : Type} (env : Environment) (field : PartialSettings → Option α) : Option α :=
  env.home?.bind fun home => env.given field home.configFile

theorem foldl_layer (env : Environment) (files : List Path) (s : Settings) :
    files.foldl env.layer s =
      s.apply (.collect fun field => files.reverse.findSome? (env.given field)) := by
  induction files using List.reverseRecOn with
  | nil => rfl
  | append_singleton files file ih =>
    rw [List.foldl_append, List.foldl_cons, List.foldl_nil, ih, layer]
    simp only [List.reverse_append, List.reverse_singleton, List.findSome?_append,
      List.findSome?_singleton]
    cases loaded : PartialSettings.load env.fs file with
    | error fault => simp [given, loaded]
    | ok settings => simp [given, loaded, Settings.apply, PartialSettings.collect, Option.getD_or]

variable {fs : FileSystem} {file : Path} {β : Type}

theorem load_eq_ok {settings : PartialSettings}
    (done : PartialSettings.load fs file = .ok settings) :
    fs.isFile file = true := by
  unfold PartialSettings.load at done
  split at done
  · cases done
  · rename_i text read
    obtain ⟨bytes, read, _⟩ := FileSystem.readText_eq_ok read
    exact FileSystem.isFile_of_read read

variable {α : Type} {env : Environment} {p : Path} {field : PartialSettings → Option α}

theorem given_eq_none (bare : env.holds directory = false) :
    env.given field directory.configFile = none := by
  unfold given
  split
  · rename_i settings done
    have held := load_eq_ok done
    rw [← holds, bare] at held
    cases held
  · rfl

theorem load_eq_of_locate {file' : Path} (same : fs.locate file = fs.locate file') :
    PartialSettings.load fs file = PartialSettings.load fs file' := by
  simp only [PartialSettings.load, FileSystem.readText, FileSystem.read, same]

theorem given_of_isHome (isHome : env.isHome directory = true) :
    env.given field directory.configFile = env.homeGiven? field := by
  obtain ⟨f, found, same⟩ := Option.any_eq_true _ _ |>.mp isHome
  obtain ⟨home, named, rfl, _⟩ := homeFile?_eq_some found
  rw [homeGiven?, named, Option.bind_some, given, given,
    load_eq_of_locate (locate_configFile same)]

theorem findSome?_homeFile? :
    env.homeFile?.toList.findSome? (env.given field) = env.homeGiven? field := by
  rw [homeFile?, homeGiven?]
  cases env.home? with
  | none => rfl
  | some home =>
    cases held : env.holds home with
    | true => simp [Option.filter, held]
    | false => simp [Option.filter, held, given_eq_none held]

theorem findSome?_filter_of_none {g : β → Option α} {counts : β → Bool} {l : List β}
    (bare : ∀ b ∈ l, counts b = false → g b = none) :
    (l.filter counts).findSome? g = l.findSome? g := by
  induction l with
  | nil => rfl
  | cons b l ih =>
    have later := ih fun c mem => bare c (List.mem_cons_of_mem b mem)
    cases counted : counts b with
    | true => rw [List.filter_cons_of_pos counted, List.findSome?_cons, List.findSome?_cons, later]
    | false =>
      rw [List.filter_cons_of_neg (by simp [counted]), later, List.findSome?_cons,
        bare b List.mem_cons_self counted]

/-- Skipping changes nothing if what is skipped sets what is set in the end, and nothing behind it
sets anything. -/
theorem findSome?_skip {g : β → Option α} {last : Option α} {skip : β → Bool} {l : List β}
    (settled : ∀ b ∈ l, skip b = true → g b = last)
    (quiet : l.Pairwise fun b c => skip b = true → g c = none) :
    ((l.filter fun b => !skip b).findSome? g).or last = (l.findSome? g).or last := by
  induction l with
  | nil => rfl
  | cons b l ih =>
    obtain ⟨behind, quiet⟩ := List.pairwise_cons.mp quiet
    have later := ih (fun c mem => settled c (List.mem_cons_of_mem b mem)) quiet
    cases skipped : skip b with
    | false =>
      rw [List.filter_cons_of_pos (by simp [skipped]), List.findSome?_cons, List.findSome?_cons]
      cases g b with
      | some value => rfl
      | none => exact later
    | true =>
      have none : l.findSome? g = none :=
        List.findSome?_eq_none_iff.mpr fun c mem => behind c mem skipped
      rw [List.filter_cons_of_neg (by simp [skipped]), later, List.findSome?_cons, none,
        settled b List.mem_cons_self skipped]
      cases last <;> rfl

theorem findSome?_configFiles : (env.configFiles p).reverse.findSome? (env.given field) =
    (env.deepest? field ((env.above p).filter fun d => !env.isHome d)).or
      (env.homeGiven? field) := by
  have home : env.homeFile?.toList.reverse = env.homeFile?.toList := by cases env.homeFile? <;> rfl
  rw [configFiles_eq, List.reverse_append, List.findSome?_append, home, findSome?_homeFile?,
    deepest?, ← List.map_reverse, List.findSome?_map, ← List.filter_filter, ← List.filter_reverse,
    findSome?_filter_of_none]
  · rfl
  · intro directory _ bare
    exact given_eq_none bare

theorem deepest?_of_homeOutermost (outermost : env.HomeOutermost p) :
    (env.deepest? field ((env.above p).filter fun d => !env.isHome d)).or (env.homeGiven? field) =
      (env.deepest? field (env.above p)).or (env.homeGiven? field) := by
  rw [deepest?, ← List.filter_reverse]
  apply findSome?_skip
  · intro directory _ isHome
    exact given_of_isHome isHome
  · rw [List.pairwise_reverse]
    apply (env.above_pairwise p).imp_of_mem
    intro a b memA memB deeper isHome
    exact given_eq_none (outermost a memA b memB deeper isHome)

/-- Configuration files are listed by depth behind that of the home directory, and a field has the
value that the deepest file sets it to, then that of the home directory, then its default. A file
that is also that of the home directory keeps its place at the front: depth settles the order
exactly if nothing further out than it has a file, and then it settles every field too. -/
theorem nearest_file_settles (env : Environment) (p : Path) :
    ((env.above p).Pairwise fun a b => a.depth < b.depth) ∧
      env.configFiles p = env.homeFile?.toList ++
        ((env.above p).filter fun d => env.holds d && !env.isHome d).map Path.configFile ∧
      env.discoverSettings p = Settings.apply {} (.collect fun field =>
        (env.deepest? field ((env.above p).filter fun d => !env.isHome d)).or
          (env.homeGiven? field)) ∧
      (env.OuterFirst p ↔ env.HomeOutermost p) ∧
      (env.HomeOutermost p → env.discoverSettings p = Settings.apply {} (.collect fun field =>
        (env.deepest? field (env.above p)).or (env.homeGiven? field))) := by
  have settled : env.discoverSettings p = Settings.apply {} (.collect fun field =>
      (env.deepest? field ((env.above p).filter fun d => !env.isHome d)).or
        (env.homeGiven? field)) := by
    rw [discoverSettings, foldl_layer]
    simp only [findSome?_configFiles]
  refine ⟨env.above_pairwise p, env.configFiles_eq p, settled, outerFirst_iff, ?_⟩
  intro outermost
  rw [settled]
  simp only [deepest?_of_homeOutermost outermost]

/-- With `lib` as the home directory, its file comes in front of the one further out. -/
example : configFiles
    { fs := ⟨["w"], [(["w", "csorganize.toml"], .empty), (["w", "lib", "csorganize.toml"], .empty),
        (["w", "lib", "A.cs"], .empty)], []⟩
      homeVariable := some "lib" } ⟨"lib/A.cs"⟩ =
    [⟨"lib/csorganize.toml"⟩, ⟨"csorganize.toml"⟩] := by decide +kernel

end Environment

end CSharpTidy
