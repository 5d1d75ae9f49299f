import CSharpTidy.Files.Collect
import CSharpTidy.Proofs.Ordering
import CSharpTidy.Proofs.PathComponents
import Mathlib.Data.List.Nodup

/- Collecting files is choosing among all files. The walk leaves out excluded directories with all
   that is below them, and stops at a depth; in a tree no deeper than that it finds, in the same
   order, the files of the whole tree that have a wanted extension and of whose path no beginning is
   excluded. -/
namespace CSharpTidy

variable {names : List String} {name : String} {α : Type} {p : Path}

theorem nodup_eraseDups [BEq α] [LawfulBEq α] (l : List α) : l.eraseDups.Nodup := by
  induction size : l.length using Nat.strongRecOn generalizing l with
  | ind n ih =>
    cases l with
    | nil => simp
    | cons a l =>
      have shorter : (l.filter fun b => !b == a).length < n := by
        have := List.length_filter_le (fun b => !b == a) l
        rw [← size, List.length_cons]
        omega
      rw [List.eraseDups_cons, List.nodup_cons]
      exact ⟨by simp [List.mem_eraseDups], ih _ shorter _ rfl⟩

theorem ne_of_lt_cmp {cmp : α → α → Ordering} [Std.ReflCmp cmp] {a b : α} (h : cmp a b = .lt) :
    a ≠ b := by
  rintro rfl
  have self : cmp a a = .eq := Std.ReflCmp.compare_self
  rw [self] at h
  cases h

section Increasing

variable {α : Type} {cmp : α → α → Ordering} [Std.TransCmp cmp] [Std.LawfulEqCmp cmp]

theorem increasing_mergeSort [BEq α] [LawfulBEq α] (l : List α) :
    (l.eraseDups.mergeSort fun a b => (cmp a b).isLE).Pairwise fun a b => cmp a b = .lt := by
  have sorted := pairwise_mergeSort_of_compared (fun a b : α => (rfl : (cmp a b).isLE = _))
    l.eraseDups
  have once := (List.mergeSort_perm l.eraseDups fun a b => (cmp a b).isLE).nodup_iff.mpr
    (nodup_eraseDups l)
  refine (sorted.and once).imp ?_
  rintro a b ⟨le, other⟩
  cases order : cmp a b with
  | lt => rfl
  | eq => exact absurd (Std.LawfulEqCmp.compare_eq_iff_eq.mp order) other
  | gt => simp [order] at le

theorem eq_of_increasing {l l' : List α} (h : l.Pairwise fun a b => cmp a b = .lt)
    (h' : l'.Pairwise fun a b => cmp a b = .lt) (same : ∀ a, a ∈ l ↔ a ∈ l') : l = l' := by
  have perm := (List.perm_ext_iff_of_nodup (h.imp ne_of_lt_cmp) (h'.imp ne_of_lt_cmp)).mpr same
  refine perm.eq_of_pairwise ?_ h h'
  intro a b _ _ lt gt
  have swapped : cmp b a = (cmp a b).swap := Std.OrientedCmp.eq_swap
  rw [swapped, lt] at gt
  cases gt

end Increasing

namespace FileSystem

def namesTowards? (l target : Location) : Option (List String) :=
  if l.isPrefixOf target then some (target.drop l.length) else none

/-- All files at and below a location, by the names that lead there, in the order of names. -/
def filesBelow (fs : FileSystem) (l : Location) : List (List String) :=
  ((fs.files.filterMap fun f => namesTowards? l f.1).eraseDups).mergeSort fun a b =>
    (List.compareLex compare a b).isLE

section

variable {fs : FileSystem} {l : Location}

theorem namesTowards?_eq_some {target : Location} :
    namesTowards? l target = some names ↔ target = l ++ names := by
  unfold namesTowards?
  split
  · rename_i above
    obtain ⟨rest, rfl⟩ := List.isPrefixOf_iff_prefix.mp above
    simp
  · rename_i apart
    simp only [reduceCtorEq, false_iff]
    rintro rfl
    exact apart (by simp)

theorem kindAt?_eq_file_iff : fs.kindAt? l = some .file ↔ ∃ f ∈ fs.files, f.1 = l := by
  have found : (fs.bytesAt? l).isSome ↔ ∃ f ∈ fs.files, f.1 = l := by
    simp [bytesAt?]
  rw [← found, kindAt?]
  split
  · simp_all
  · split <;> simp_all

theorem mem_filesBelow : names ∈ fs.filesBelow l ↔ fs.kindAt? (l ++ names) = some .file := by
  rw [filesBelow, List.mem_mergeSort, List.mem_eraseDups, List.mem_filterMap, kindAt?_eq_file_iff]
  simp only [namesTowards?_eq_some]

theorem filesBelow_increasing (fs : FileSystem) (l : Location) :
    (fs.filesBelow l).Pairwise fun a b => List.compareLex compare a b = .lt :=
  increasing_mergeSort _

theorem childrenAt_increasing (fs : FileSystem) (l : Location) :
    (fs.childrenAt l).Pairwise fun a b => compare a b = .lt :=
  increasing_mergeSort _

theorem mem_childrenAt (file : fs.kindAt? (l ++ name :: names) = some .file) :
    name ∈ fs.childrenAt l := by
  obtain ⟨f, mem, place⟩ := kindAt?_eq_file_iff.mp file
  rw [childrenAt, List.mem_mergeSort, List.mem_eraseDups, List.mem_filterMap]
  refine ⟨f.1, List.mem_append_left _ (List.mem_map_of_mem mem), ?_⟩
  simp [childTowards?, place]

theorem isDirectoryAt_of_file (file : fs.kindAt? (l ++ name :: names) = some .file) :
    fs.isDirectoryAt l = true := by
  obtain ⟨f, mem, place⟩ := kindAt?_eq_file_iff.mp file
  simp only [isDirectoryAt, Bool.or_eq_true, List.any_eq_true]
  refine .inr ⟨f, mem, ?_⟩
  simp [place]

theorem filesBelow_of_none (none : fs.kindAt? l = none) : fs.filesBelow l = [] := by
  rw [List.eq_nil_iff_forall_not_mem]
  intro names mem
  rw [mem_filesBelow] at mem
  cases names with
  | nil => simp [none] at mem
  | cons name names =>
    have directory := isDirectoryAt_of_file mem
    unfold kindAt? at none
    split at none <;> simp_all

theorem filesBelow_of_directory (directory : fs.kindAt? l = some .directory) :
    fs.filesBelow l = (fs.childrenAt l).flatMap fun name =>
      (fs.filesBelow (l ++ [name])).map (name :: ·) := by
  refine eq_of_increasing (fs.filesBelow_increasing l) ?_ ?_
  · rw [List.pairwise_flatMap]
    constructor
    · intro name _
      rw [List.pairwise_map]
      refine (fs.filesBelow_increasing (l ++ [name])).imp ?_
      intro a b lt
      simpa [List.compareLex_cons_cons] using lt
    · refine (fs.childrenAt_increasing l).imp ?_
      intro name name' lt a mem b mem'
      obtain ⟨rest, -, rfl⟩ := List.mem_map.mp mem
      obtain ⟨rest', -, rfl⟩ := List.mem_map.mp mem'
      rw [List.compareLex_cons_cons, lt]
      rfl
  · intro names
    rw [mem_filesBelow, List.mem_flatMap]
    cases names with
    | nil => simp [directory]
    | cons name names =>
      constructor
      · intro file
        refine ⟨name, mem_childrenAt file, List.mem_map.mpr ⟨names, ?_, rfl⟩⟩
        rw [mem_filesBelow, List.append_assoc, List.singleton_append]
        exact file
      · rintro ⟨name', -, mem⟩
        obtain ⟨rest, inside, same⟩ := List.mem_map.mp mem
        cases same
        rwa [mem_filesBelow, List.append_assoc, List.singleton_append] at inside

end

/-- Files have names, and nothing is below a file. -/
structure IsTree (fs : FileSystem) : Prop where
  names : ∀ f ∈ fs.files, ∀ name ∈ f.1, Path.IsName name
  leaves : ∀ f ∈ fs.files, ∀ g ∈ fs.files, f.1 <+: g.1 → f.1 = g.1
  outside : ∀ f ∈ fs.files, ¬ f.1 <+: fs.workingDirectory ∧ ∀ d ∈ fs.directories, ¬ f.1 <+: d

instance (name : String) : Decidable (Path.IsName name) :=
  decidable_of_iff ('/' ∉ name.toList ∧
      Component.ofSegment? name.toList = some (.name name.toList))
    ⟨fun h => ⟨h.1, h.2⟩, fun h => ⟨h.plain, h.named⟩⟩

instance (fs : FileSystem) : Decidable fs.IsTree :=
  decidable_of_iff ((∀ f ∈ fs.files, ∀ name ∈ f.1, Path.IsName name) ∧
      (∀ f ∈ fs.files, ∀ g ∈ fs.files, f.1 <+: g.1 → f.1 = g.1) ∧
      ∀ f ∈ fs.files, ¬ f.1 <+: fs.workingDirectory ∧ ∀ d ∈ fs.directories, ¬ f.1 <+: d)
    ⟨fun h => ⟨h.1, h.2.1, h.2.2⟩, fun h => ⟨h.names, h.leaves, h.outside⟩⟩

namespace IsTree

variable {fs : FileSystem} {l : Location} (tree : fs.IsTree)

include tree

theorem isName (file : fs.kindAt? (l ++ names) = some .file) :
    ∀ name ∈ names, Path.IsName name := by
  intro name mem
  obtain ⟨f, listed, place⟩ := kindAt?_eq_file_iff.mp file
  exact tree.names f listed name (by simp [place, mem])

theorem filesBelow_of_file (file : fs.kindAt? l = some .file) : fs.filesBelow l = [[]] := by
  refine eq_of_increasing (fs.filesBelow_increasing l) (List.pairwise_singleton ..) ?_
  intro names
  rw [mem_filesBelow, List.mem_singleton]
  constructor
  · intro below
    obtain ⟨f, mem, rfl⟩ := kindAt?_eq_file_iff.mp file
    obtain ⟨g, mem', place⟩ := kindAt?_eq_file_iff.mp below
    have same := tree.leaves f mem g mem' (place ▸ List.prefix_append _ _)
    rw [place] at same
    simpa using same
  · rintro rfl
    simpa using file

theorem not_file_above {d : Location} (directory : fs.kindAt? d = some .directory)
    (above : l <+: d) : fs.kindAt? l ≠ some .file := by
  intro file
  obtain ⟨f, mem, rfl⟩ := kindAt?_eq_file_iff.mp file
  obtain ⟨home, apart⟩ := tree.outside f mem
  have place : fs.isDirectoryAt d = true := by
    unfold kindAt? at directory
    split at directory
    · cases directory
    · split at directory <;> simp_all
  simp only [isDirectoryAt, Bool.or_eq_true, List.any_eq_true, List.isPrefixOf_iff_prefix,
    Bool.and_eq_true, bne_iff_ne] at place
  rcases place with (inHome | ⟨e, listed, inside⟩) | ⟨g, mem', inside, other⟩
  · exact home (above.trans inHome)
  · exact apart e listed (above.trans inside)
  · have same := tree.leaves f mem g mem' (above.trans inside)
    have bound := above.length_le
    rw [same] at bound
    exact other (inside.eq_of_length_le bound)

theorem directory_above (file : fs.kindAt? (l ++ name :: names) = some .file) :
    fs.kindAt? l = some .directory := by
  have directory := isDirectoryAt_of_file file
  have noFile : fs.kindAt? l ≠ some .file := by
    intro above
    have below := tree.filesBelow_of_file above
    have mem : name :: names ∈ fs.filesBelow l := mem_filesBelow.mpr file
    simp [below] at mem
  unfold kindAt? at noFile ⊢
  split at noFile <;> simp_all

end IsTree

end FileSystem

def Path.descend (p : Path) (names : List String) : Path :=
  names.foldl Path.join p

theorem Path.text_join (inhabited : p.text ≠ "") (name : String) :
    ∃ more, (p.join name).text = p.text ++ more := by
  unfold join
  split
  · rename_i empty
    exact absurd (String.isEmpty_iff.mp empty) inhabited
  · split
    · exact ⟨name, rfl⟩
    · exact ⟨"/" ++ name, String.append_assoc⟩

namespace Selection

/-- Whether a file is chosen that `names` lead to from `path`, where `above` leads from the input to
`path`: by its extension, and by what is excluded on the way. -/
def wants (s : Selection) (path : Path) (above names : List String) : Bool :=
  (path.descend names).hasExtension s.extensions &&
    names.inits.all fun front => !s.excludes (above ++ front)

theorem wants_cons (s : Selection) (path : Path) (above : List String) (name : String)
    (names : List String) : s.wants path above (name :: names) =
      (!s.excludes above && s.wants (path.join name) (above ++ [name]) names) := by
  have onward : ∀ front, above ++ [name] ++ front = above ++ name :: front := by simp
  simp only [wants, List.inits_cons, List.all_cons, List.append_nil, List.all_map,
    Function.comp_def, onward, Path.descend, List.foldl_cons]
  cases s.excludes above <;> simp

theorem wants_of_excludes {s : Selection} {above : List String} (excluded : s.excludes above = true)
    (path : Path) (names : List String) : s.wants path above names = false := by
  cases names with
  | nil => simp [wants, excluded]
  | cons name names => simp [wants_cons, excluded]

theorem walk_eq {fs : FileSystem} (tree : fs.IsTree) (s : Selection) {depth : Nat} {l : Location}
    (above : List String) (path : Path)
    (shallow : ∀ names ∈ fs.filesBelow l, names.length ≤ depth) :
    s.walk fs depth l above path =
      ((fs.filesBelow l).filter (s.wants path above)).map path.descend := by
  fun_induction walk s fs depth l above path with
  | case1 depth l above path excluded =>
    have none : (fs.filesBelow l).filter (s.wants path above) = [] := by
      simp [List.filter_eq_nil_iff, wants_of_excludes excluded]
    rw [none, List.map_nil]
  | case2 depth l above path _ missing => rw [FileSystem.filesBelow_of_none missing]; rfl
  | case3 depth l above path kept file fits =>
    simp [tree.filesBelow_of_file file, wants, Path.descend, fits, kept]
  | case4 depth l above path kept file fits =>
    simp [tree.filesBelow_of_file file, wants, Path.descend, fits]
  | case5 l above path kept directory =>
    have none : fs.filesBelow l = [] := by
      rw [List.eq_nil_iff_forall_not_mem]
      intro names mem
      have short := shallow names mem
      obtain rfl : names = [] := List.eq_nil_of_length_eq_zero (by omega)
      rw [FileSystem.mem_filesBelow, List.append_nil, directory] at mem
      cases mem
    rw [none]
    rfl
  | case6 l above path kept directory depth ih =>
    rw [FileSystem.filesBelow_of_directory directory, List.filter_flatMap, List.map_flatMap]
    refine List.flatMap_congr fun name _ => ?_
    have lower : ∀ names ∈ fs.filesBelow (l ++ [name]), names.length ≤ depth := by
      intro names mem
      rw [FileSystem.mem_filesBelow, List.append_assoc, List.singleton_append] at mem
      have short := shallow (name :: names) (FileSystem.mem_filesBelow.mpr mem)
      rw [List.length_cons] at short
      omega
    have same : (s.wants path above ∘ fun names => name :: names) =
        s.wants (path.join name) (above ++ [name]) := by
      funext names
      simp [wants_cons, kept]
    rw [ih name lower, List.filter_map, List.map_map, same]
    rfl

end Selection

namespace FileSystem

variable {fs : FileSystem} {p : Path} {l : Location}

theorem locate_eq_ok_iff : fs.locate p = .ok l ↔ p.text ≠ "" ∧
    p.segments.foldlM fs.follow (if p.isAbsolute then [] else fs.workingDirectory) = .ok l := by
  rw [locate]
  by_cases empty : p.text = "" <;> simp [empty]

theorem foldlM_follow_concat {before : List (List Char)} {last : List Char} {origin : Location} :
    (before ++ [last]).foldlM fs.follow origin = .ok l ↔
      ∃ l', before.foldlM fs.follow origin = .ok l' ∧ fs.follow l' last = .ok l := by
  rw [List.foldlM_append]
  cases before.foldlM fs.follow origin with
  | error fault => simp [bind, Except.bind]
  | ok l' =>
    cases onward : fs.follow l' last <;> simp [bind, Except.bind, pure, Except.pure, onward]

theorem follow_directory {l' : Location} {segment : List Char}
    (followed : fs.follow l' segment = .ok l) : fs.kindAt? l' = some .directory := by
  unfold follow at followed
  split at followed
  · cases followed
  · cases followed
  · assumption

theorem locate_join (isName : Path.IsName name) (located : fs.locate p = .ok l)
    (directory : fs.kindAt? l = some .directory) : fs.locate (p.join name) = .ok (l ++ [name]) := by
  have onward : fs.follow l name.toList = .ok (l ++ [name]) := by
    simp [follow, directory, isName.named]
  obtain ⟨inhabited, located⟩ := locate_eq_ok_iff.mp located
  obtain ⟨more, text⟩ := p.text_join inhabited name
  have absolute : (p.join name).isAbsolute = p.isAbsolute := by
    obtain ⟨c, rest, front⟩ := List.exists_cons_of_ne_nil (mt String.toList_eq_nil_iff.mp inhabited)
    simp [Path.isAbsolute, text, front]
  obtain ⟨before, segments, found⟩ := p.segments_join isName
  rw [locate_eq_ok_iff, absolute, segments, foldlM_follow_concat]
  refine ⟨by simp [text, inhabited], l, ?_, onward⟩
  rcases found with ⟨same, -⟩ | same
  · rwa [same] at located
  · rw [same, foldlM_follow_concat] at located
    obtain ⟨l', reached, stays⟩ := located
    have place := follow_directory stays
    simp only [follow, place, Component.ofSegment?] at stays
    cases stays
    exact reached

namespace IsTree

variable (tree : fs.IsTree)

include tree

theorem locate_descend (located : fs.locate p = .ok l)
    (file : fs.kindAt? (l ++ names) = some .file) :
    fs.locate (p.descend names) = .ok (l ++ names) := by
  induction names generalizing p l with
  | nil => simpa [Path.descend] using located
  | cons name names ih =>
    have isName := tree.isName file name (by simp)
    have next := locate_join isName located (tree.directory_above file)
    rw [← List.singleton_append, ← List.append_assoc] at file ⊢
    exact ih next file

theorem fileName_of_file (located : fs.locate p = .ok l) (file : fs.kindAt? l = some .file) :
    ∃ name, Path.IsName name ∧ p.fileName? = some name.toList := by
  obtain ⟨-, followed⟩ := locate_eq_ok_iff.mp located
  obtain ⟨before, last, split⟩ :=
    (List.eq_nil_or_concat' p.segments).resolve_left p.segments_ne_nil
  rw [split, foldlM_follow_concat] at followed
  obtain ⟨l', -, followed⟩ := followed
  have directory := follow_directory followed
  -- a last segment that is no name leads to a directory
  have named : Component.ofSegment? last = some (.name last) := by
    simp only [follow, directory] at followed
    split at followed
    · rename_i name found
      rw [found]
      unfold Component.ofSegment? at found
      grind
    · cases followed
      exact absurd file (tree.not_file_above directory (List.dropLast_prefix l'))
    · cases followed
      rw [directory] at file
      cases file
  have plain : '/' ∉ last := Path.slash_not_mem (p := p) (by simp [split])
  refine ⟨String.ofList last, ⟨by simpa using plain, by simpa using named⟩, ?_⟩
  have inner : p.segments.filterMap Component.ofSegment? =
      before.filterMap Component.ofSegment? ++ [.name last] := by
    simp [split, List.filterMap_append, named]
  rw [Path.fileName?, Path.components, inner, String.toList_ofList]
  split
  · simp [List.getLast?_cons, Component.name?]
  · split <;> simp [List.getLast?_cons, Component.name?]

end IsTree

end FileSystem

theorem Path.components_descend (valid : ∀ name ∈ names, IsName name) (p : Path) :
    (p.descend names).components = p.components ++ names.map fun name => .name name.toList := by
  induction names generalizing p with
  | nil => simp [descend]
  | cons name names ih =>
    rw [List.forall_mem_cons] at valid
    have onward := ih valid.2 (p.join name)
    rw [components_join valid.1, List.append_assoc] at onward
    exact onward

theorem Path.descend_injective {names' : List String} (valid : ∀ name ∈ names, IsName name)
    (valid' : ∀ name ∈ names', IsName name) (same : p.descend names = p.descend names') :
    names = names' := by
  have components := congrArg Path.components same
  rw [components_descend valid, components_descend valid', List.append_cancel_left_eq] at components
  refine List.map_injective_iff.mpr ?_ components
  intro a b same
  exact String.toList_injective (Component.name.inj same)

theorem Path.isExcluded_name (isName : IsName name) (patterns : List Glob) :
    isExcluded patterns ⟨name⟩ = patterns.any fun g => g.matchesText name.toList := by
  have components : (Path.mk name).components = [.name name.toList] := by
    have joined := components_join isName ⟨""⟩
    simpa [join, Path.components, segments, Text.splitAt, Component.ofSegment?, isAbsolute]
      using joined
  simp [isExcluded, components, Component.name?]

namespace Selection

/-- What an input stands for, as a choice among all files: a file of which no pattern fits the name,
or the files below a directory that have a wanted extension and of whose names no beginning is
excluded, be it empty or all of them. -/
def chosen (s : Selection) (fs : FileSystem) (input : Path) : List Path :=
  match fs.locate input with
  | .error _ => []
  | .ok l =>
      match fs.kindAt? l with
      | none => []
      | some .file =>
          if input.fileName?.any fun name => s.patterns.any fun g => g.matchesText name then []
          else [input]
      | some .directory =>
          ((fs.filesBelow l).filter fun names =>
            (input.descend names).hasExtension s.extensions &&
              names.inits.all fun front => !s.excludes front).map input.descend

theorem collectInput_eq {fs : FileSystem} (tree : fs.IsTree) (s : Selection) {input : Path}
    (shallow : ∀ l, fs.locate input = .ok l → ∀ names ∈ fs.filesBelow l, names.length ≤ maxDepth) :
    s.collectInput fs input = s.chosen fs input := by
  unfold collectInput chosen
  cases located : fs.locate input with
  | error fault => rfl
  | ok l =>
    simp only
    cases kind : fs.kindAt? l with
    | none => rfl
    | some kind' =>
      cases kind' with
      | file =>
        obtain ⟨name, isName, fileName⟩ := tree.fileName_of_file located kind
        simp [fileName, Path.isExcluded_name isName]
      | directory => exact walk_eq tree s [] input (shallow l located)

/-- Collecting files is choosing among all files, input by input. All files are found that way,
in the order of their names, each once and under a path that leads there. -/
theorem collect_eq_chosen {fs : FileSystem} (tree : fs.IsTree) (s : Selection) {inputs : List Path}
    (shallow : ∀ input ∈ inputs, ∀ l, fs.locate input = .ok l →
      ∀ names ∈ fs.filesBelow l, names.length ≤ maxDepth) :
    s.collect fs inputs = inputs.flatMap (s.chosen fs) ∧
    ∀ input l, fs.locate input = .ok l →
      (∀ names, names ∈ fs.filesBelow l ↔ fs.kindAt? (l ++ names) = some .file) ∧
      (fs.filesBelow l).Pairwise (fun a b => List.compareLex compare a b = .lt) ∧
      (∀ names ∈ fs.filesBelow l, fs.locate (input.descend names) = .ok (l ++ names)) ∧
      ((fs.filesBelow l).map input.descend).Nodup := by
  constructor
  · exact List.flatMap_congr fun input mem => collectInput_eq tree s (shallow input mem)
  · intro input l located
    have valid : ∀ names ∈ fs.filesBelow l, ∀ name ∈ names, Path.IsName name :=
      fun names mem => tree.isName (FileSystem.mem_filesBelow.mp mem)
    have increasing := fs.filesBelow_increasing l
    refine ⟨fun names => FileSystem.mem_filesBelow, increasing, ?_, ?_⟩
    · intro names mem
      exact tree.locate_descend located (FileSystem.mem_filesBelow.mp mem)
    · refine List.Nodup.map_on ?_ (increasing.imp ne_of_lt_cmp)
      intro names mem names' mem' same
      exact Path.descend_injective (valid names mem) (valid names' mem') same

/-- Below the working directory the file in `obj` is left out; given by name, it is taken. -/
theorem collect_eq_chosen_pruned :
    let fs : FileSystem :=
      ⟨["w"], [(["w", "src", "A.cs"], .empty), (["w", "obj", "B.cs"], .empty)], []⟩
    let s : Selection := ⟨["obj"].filterMap Glob.parse?, ["cs"]⟩
    fs.IsTree ∧ s.collect fs [⟨"."⟩, ⟨"obj/B.cs"⟩] = [⟨"./src/A.cs"⟩, ⟨"obj/B.cs"⟩] := by
  intro fs s
  have tree : fs.IsTree := by decide
  have below : fs.filesBelow ["w"] = [["obj", "B.cs"], ["src", "A.cs"]] := by
    refine eq_of_increasing (fs.filesBelow_increasing ["w"]) (by decide) ?_
    intro names
    rw [FileSystem.mem_filesBelow, FileSystem.kindAt?_eq_file_iff]
    simp [fs, eq_comm, or_comm]
  have shallow : ∀ input ∈ [⟨"."⟩, ⟨"obj/B.cs"⟩], ∀ l, fs.locate input = .ok l →
      ∀ names ∈ fs.filesBelow l, names.length ≤ maxDepth := by
    intro input _ l _ names mem
    rw [FileSystem.mem_filesBelow, FileSystem.kindAt?_eq_file_iff] at mem
    obtain ⟨f, file, place⟩ := mem
    have short : ∀ f ∈ fs.files, f.1.length ≤ maxDepth := by decide
    have bound := short f file
    rw [place, List.length_append] at bound
    omega
  have root : fs.locate ⟨"."⟩ = .ok ["w"] := by decide +kernel
  have kind : fs.kindAt? ["w"] = some .directory := by decide +kernel
  have first : s.chosen fs ⟨"."⟩ = [⟨"./src/A.cs"⟩] := by
    simp only [chosen, root, kind, below]
    decide +kernel
  have second : s.chosen fs ⟨"obj/B.cs"⟩ = [⟨"obj/B.cs"⟩] := by decide +kernel
  refine ⟨tree, ?_⟩
  rw [(collect_eq_chosen tree s shallow).1, List.flatMap_cons, List.flatMap_cons, first, second]
  rfl

end Selection

end CSharpTidy
