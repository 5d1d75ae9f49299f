import CSharpTidy.Files.FileSystem
import Mathlib.Data.List.Infix

/- Paths by their components. The paths above a path are the beginnings of its components, joining
   a name adds one, and where a path leads depends on them alone. -/
namespace CSharpTidy

namespace Text

theorem splitAt_eq (separator : Char) (s : List Char) :
    splitAt separator s = s.splitOn separator := by
  induction s with
  | nil => simp [splitAt]
  | cons c rest ih =>
    rw [splitAt, List.splitOn_cons_eq_if_modifyHead, ih]
    split
    · rfl
    · cases parts : List.splitOn separator rest with
      | nil => exact absurd parts (List.splitOn_ne_nil _ _)
      | cons part parts => rfl

theorem separator_not_mem {separator : Char} {s part : List Char}
    (mem : part ∈ s.splitOn separator) : separator ∉ part := by
  induction s generalizing part with
  | nil => simp_all
  | cons c rest ih =>
    rw [List.splitOn_cons_eq_if_modifyHead] at mem
    split at mem
    · rcases List.mem_cons.mp mem with rfl | mem
      · simp
      · exact ih mem
    · rename_i other
      cases parts : List.splitOn separator rest with
      | nil => exact absurd parts (List.splitOn_ne_nil _ _)
      | cons first parts =>
        rw [parts, List.modifyHead_cons] at mem
        rcases List.mem_cons.mp mem with rfl | mem
        · have inner : separator ∉ first := ih (parts ▸ List.mem_cons_self)
          simp only [beq_iff_eq] at other
          simp [inner, Ne.symm other]
        · exact ih (parts ▸ List.mem_cons_of_mem _ mem)

end Text

variable {rest : List (List Char)} {first segment : List Char} {p : Path}

namespace Component

/-- Nothing in front of a slash stands for the root. A dot counts at the very front. -/
def front (first : List Char) : List Component :=
  if first = [] then [.root] else if first = ['.'] then [.current] else []

def ofSegments : List (List Char) → List Component
  | [] => []
  | [[]] => []
  | first :: rest => front first ++ (first :: rest).filterMap ofSegment?

theorem ofSegments_cons (slash : first = [] → rest ≠ []) :
    ofSegments (first :: rest) = front first ++ (first :: rest).filterMap ofSegment? := by
  cases first with
  | nil =>
    cases rest with
    | nil => exact absurd rfl (slash rfl)
    | cons second rest => rfl
  | cons c first => rfl

theorem ofSegment?_isSome (inhabited : segment ≠ []) (plain : segment ≠ ['.']) :
    ∃ component, ofSegment? segment = some component := by
  simp only [ofSegment?, beq_iff_eq, Bool.or_eq_true, inhabited, plain, or_false, if_false]
  split
  · exact ⟨.parent, rfl⟩
  · exact ⟨.name segment, rfl⟩

def leads : Component → Bool
  | .name _ | .parent => true
  | .root | .current => false

theorem leads_of_ofSegment? {component : Component} (found : ofSegment? segment = some component) :
    component.leads = true := by
  unfold ofSegment? at found
  split at found
  · cases found
  · split at found <;> (cases found; rfl)

theorem front_append_eq (inhabited : first ≠ []) :
    ∃ component, front first ++ [first].filterMap ofSegment? = [component] := by
  by_cases dot : first = ['.']
  · exact ⟨.current, by rw [dot]; rfl⟩
  · obtain ⟨component, ends⟩ := ofSegment?_isSome inhabited dot
    exact ⟨component, by simp [front, inhabited, dot, ends]⟩

end Component

namespace Path

theorem segments_ne_nil (p : Path) : p.segments ≠ [] := by
  rw [segments, Text.splitAt_eq]
  exact List.splitOn_ne_nil _ _

theorem slash_not_mem (mem : segment ∈ p.segments) : '/' ∉ segment := by
  rw [segments, Text.splitAt_eq] at mem
  exact Text.separator_not_mem mem

variable {segments : List (List Char)} {name : String} {α : Type}

theorem segments_ofSegments (inhabited : segments ≠ [])
    (plain : ∀ segment ∈ segments, '/' ∉ segment) : (ofSegments segments).segments = segments := by
  rw [Path.segments, Text.splitAt_eq, ofSegments, String.toList_ofList]
  exact List.splitOn_intercalate '/' plain inhabited

theorem isAbsolute_iff (p : Path) :
    p.isAbsolute = true ↔ ∃ segment rest, p.segments = [] :: segment :: rest := by
  rw [isAbsolute, segments, Text.splitAt_eq]
  cases p.text.toList with
  | nil => simp
  | cons c rest =>
    rw [List.splitOn_cons_eq_if_modifyHead]
    cases parts : List.splitOn '/' rest with
    | nil => exact absurd parts (List.splitOn_ne_nil _ _)
    | cons part parts => by_cases slash : c = '/' <;> simp [slash]

theorem components_eq (p : Path) : p.components = Component.ofSegments p.segments := by
  have absolute := p.isAbsolute_iff
  have inhabited := p.segments_ne_nil
  rw [components]
  generalize p.segments = segments at absolute inhabited
  cases segments with
  | nil => exact absurd rfl inhabited
  | cons first rest =>
    by_cases empty : first = []
    · subst empty
      cases rest with
      | nil => simp_all [Component.ofSegments, Component.ofSegment?]
      | cons second rest =>
        rw [Component.ofSegments_cons (by simp)]
        simp [absolute.mpr ⟨second, rest, rfl⟩, Component.front]
    · rw [Component.ofSegments_cons (fun slash => absurd slash empty)]
      have relative : p.isAbsolute = false := by
        rw [← Bool.not_eq_true, absolute]
        rintro ⟨second, rest, same⟩
        exact empty (List.cons.inj same).1
      by_cases dot : first = ['.'] <;> simp [relative, Component.front, empty, dot]

def depth (p : Path) : Nat :=
  p.components.length

theorem components_ofSegments (inhabited : segments ≠ [])
    (plain : ∀ segment ∈ segments, '/' ∉ segment) :
    (ofSegments segments).components = Component.ofSegments segments := by
  rw [components_eq, segments_ofSegments inhabited plain]

theorem components_cuts {before : List (List Char)} {base : List Component}
    (settled : base = Component.front first ++ (first :: before).filterMap Component.ofSegment?)
    (plain : ∀ segment ∈ first :: before ++ rest, '/' ∉ segment) :
    (cuts (first :: before) rest).map components =
      (rest.filterMap Component.ofSegment?).inits.tail.map (base ++ ·) := by
  induction rest generalizing before base with
  | nil => simp [cuts]
  | cons segment rest ih =>
    have grown : base ++ (Component.ofSegment? segment).toList = Component.front first ++
        (first :: (before ++ [segment])).filterMap Component.ofSegment? := by
      rw [settled, ← List.cons_append, List.filterMap_append, List.append_assoc]
      cases ends : Component.ofSegment? segment <;> simp [ends]
    have later := ih grown (by simpa using plain)
    have upTo : (ofSegments (first :: (before ++ [segment]))).components =
        base ++ (Component.ofSegment? segment).toList := by
      rw [grown, components_ofSegments (by simp), Component.ofSegments_cons (by simp)]
      intro segment mem
      exact plain segment (by simp_all; tauto)
    rw [cuts]
    cases ends : Component.ofSegment? segment with
    | none => simp_all
    | some component =>
      simp only [ends, Option.toList_some] at upTo later
      simp only [List.cons_append, List.isEmpty_cons, Bool.false_and, Bool.or_false, ends,
        Option.isSome_some, if_true, List.map_cons, upTo, later, List.filterMap_cons]
      cases rest.filterMap Component.ofSegment? <;> simp

def top (p : Path) : List Component :=
  if p.isAbsolute then [.root] else []

theorem cuts_cons_of_ne_nil (inhabited : first ≠ []) :
    cuts [] (first :: rest) = ofSegments [first] :: cuts [first] rest := by
  rw [cuts]
  by_cases dot : first = ['.']
  · simp [dot]
  · obtain ⟨component, ends⟩ := Component.ofSegment?_isSome inhabited dot
    simp [ends]

theorem components_cuts_segments (p : Path) : ∃ below, p.components = p.top ++ below ∧
    (cuts [] p.segments).map components = below.inits.tail.map (p.top ++ ·) := by
  have absolute := p.isAbsolute_iff
  have inhabited := p.segments_ne_nil
  have plain : ∀ segment ∈ p.segments, '/' ∉ segment := fun _ mem => slash_not_mem mem
  rw [components_eq, top]
  generalize p.segments = segments at absolute inhabited plain
  cases segments with
  | nil => exact absurd rfl inhabited
  | cons first rest =>
    have later : (cuts [first] rest).map components =
        (rest.filterMap Component.ofSegment?).inits.tail.map
          (Component.front first ++ [first].filterMap Component.ofSegment? ++ ·) :=
      components_cuts rfl plain
    by_cases empty : first = []
    · subst empty
      have unbroken : cuts [] ([] :: rest) = cuts [[]] rest := rfl
      rw [unbroken, later]
      cases rest with
      | nil => exact ⟨[], by simp_all [Component.ofSegments], rfl⟩
      | cons second rest =>
        refine ⟨(second :: rest).filterMap Component.ofSegment?, ?_⟩
        rw [Component.ofSegments_cons (by simp), absolute.mpr ⟨second, rest, rfl⟩]
        exact ⟨rfl, rfl⟩
    · have relative : p.isAbsolute = false := by
        rw [← Bool.not_eq_true, absolute]
        rintro ⟨second, rest, same⟩
        exact empty (List.cons.inj same).1
      obtain ⟨component, single⟩ := Component.front_append_eq empty
      have whole : Component.ofSegments (first :: rest) =
          component :: rest.filterMap Component.ofSegment? := by
        rw [Component.ofSegments_cons (fun slash => absurd slash empty), ← List.singleton_append,
          List.filterMap_append, ← List.append_assoc, single]
        rfl
      have alone : (ofSegments [first]).components = [component] := by
        rw [components_ofSegments (by simp) (by simpa using plain first (by simp)),
          Component.ofSegments_cons (fun slash => absurd slash empty), single]
      refine ⟨component :: rest.filterMap Component.ofSegment?, by rw [whole, relative]; rfl, ?_⟩
      rw [cuts_cons_of_ne_nil empty, List.map_cons, alone, later, single, relative]
      cases rest.filterMap Component.ofSegment? <;> simp

theorem components_top (p : Path) :
    (Path.mk (if p.isAbsolute then "/" else "")).components = p.top := by
  rw [top]
  cases p.isAbsolute <;> decide

theorem inits_dropLast_append (l : List α) : l.inits.dropLast ++ [l] = l.inits := by
  induction l with
  | nil => rfl
  | cons a l ih =>
    have inhabited : l.inits.map (a :: ·) ≠ [] := by cases l <;> simp
    rw [List.inits_cons, List.dropLast_cons_of_ne_nil inhabited, ← List.map_dropLast]
    conv => rhs; rw [← ih]
    simp

theorem inits_pairwise (l : List α) : l.inits.Pairwise fun a b => a.length < b.length := by
  induction l with
  | nil => simp
  | cons a l ih =>
    rw [List.inits_cons]
    apply List.pairwise_cons.mpr
    constructor
    · intro longer mem
      obtain ⟨shorter, _, rfl⟩ := List.mem_map.mp mem
      simp
    · simpa [List.pairwise_map] using ih

theorem components_ancestors (p : Path) : ∃ below, p.components = p.top ++ below ∧
    p.ancestors.map components = below.inits.map (p.top ++ ·) := by
  obtain ⟨below, whole, cutComponents⟩ := p.components_cuts_segments
  refine ⟨below, whole, ?_⟩
  unfold ancestors
  split
  · rename_i unbroken
    cases below with
    | nil => simp [whole]
    | cons component below => cases below <;> simp [unbroken] at cutComponents
  · rename_i broken
    have shortened := congrArg List.dropLast cutComponents
    cases below with
    | nil => simp_all
    | cons component below =>
      rw [List.inits_cons, List.tail_cons, ← List.map_dropLast, ← List.map_dropLast] at shortened
      simp only [List.cons_append, List.map_cons, List.map_append, components_top, whole,
        List.map_nil, shortened]
      rw [List.inits_cons, ← inits_dropLast_append below]
      simp

theorem ancestors_pairwise (p : Path) : p.ancestors.Pairwise fun a b => a.depth < b.depth := by
  obtain ⟨below, _, above⟩ := p.components_ancestors
  have deeper : (p.ancestors.map components).Pairwise fun a b => a.length < b.length := by
    rw [above, List.pairwise_map]
    simpa using inits_pairwise below
  rwa [List.pairwise_map] at deeper

structure IsName (name : String) : Prop where
  plain : '/' ∉ name.toList
  named : Component.ofSegment? name.toList = some (.name name.toList)

theorem segments_join (isName : IsName name) (p : Path) :
    ∃ before, (p.join name).segments = before ++ [name.toList] ∧
      (p.segments = before ∧ before ≠ [[]] ∨ p.segments = before ++ [[]]) := by
  have alone : List.splitOn '/' name.toList = [name.toList] :=
    List.splitOn_eq_singleton isName.plain
  simp only [segments, Text.splitAt_eq, join]
  split
  · rename_i empty
    simp only [String.isEmpty_iff] at empty
    exact ⟨[], alone, .inr (by simp [empty])⟩
  · rename_i inhabited
    split
    · rename_i slash
      obtain ⟨before, ended⟩ := List.getLast?_eq_some_iff.mp (beq_iff_eq.mp slash)
      refine ⟨List.splitOn '/' before, ?_, .inr ?_⟩
      · simp only [String.toList_append, ended, List.append_assoc, List.singleton_append]
        rw [List.splitOn_append_cons_self, alone]
      · rw [ended, List.splitOn_append_cons_self, List.splitOn_nil]
    · refine ⟨List.splitOn '/' p.text.toList, ?_, .inl ⟨rfl, ?_⟩⟩
      · have joined : (p.text ++ "/" ++ name).toList = p.text.toList ++ '/' :: name.toList := by
          simp
        rw [joined, List.splitOn_append_cons_self, alone]
      · intro single
        have text : ['/'].intercalate (List.splitOn '/' p.text.toList) = p.text.toList :=
          List.intercalate_splitOn '/'
        rw [single, List.intercalate_singleton] at text
        simp_all

theorem components_join (isName : IsName name) (p : Path) :
    (p.join name).components = p.components ++ [.name name.toList] := by
  obtain ⟨before, joined, found⟩ := p.segments_join isName
  rw [components_eq, components_eq, joined]
  cases before with
  | nil =>
    have empty : p.segments = [[]] := by
      rcases found with ⟨none, _⟩ | empty
      · exact absurd none p.segments_ne_nil
      · exact empty
    have inhabited : name.toList ≠ [] := by
      intro same
      simpa [same, Component.ofSegment?] using isName.named
    have plain : name.toList ≠ ['.'] := by
      intro same
      simpa [same, Component.ofSegment?] using isName.named
    rw [empty, List.nil_append, Component.ofSegments_cons (fun slash => absurd slash inhabited)]
    simp [Component.front, inhabited, plain, isName.named, Component.ofSegments]
  | cons first rest =>
    have extended : Component.ofSegments (first :: rest ++ [name.toList]) =
        Component.front first ++ (first :: rest).filterMap Component.ofSegment? ++
          [.name name.toList] := by
      rw [List.cons_append, Component.ofSegments_cons (by simp), ← List.cons_append,
        List.filterMap_append]
      simp [isName.named]
    rw [extended]
    rcases found with ⟨same, more⟩ | same
    · rw [same, Component.ofSegments_cons]
      intro slash none
      exact more (by rw [slash, none])
    · rw [same, List.cons_append, Component.ofSegments_cons (by simp), ← List.cons_append,
        List.filterMap_append]
      simp [Component.ofSegment?]

/-- No slash or dot stands at the end of the path. -/
def EndsInComponent (p : Path) : Prop :=
  ∃ before last, p.segments = before ++ [last] ∧ (Component.ofSegment? last).isSome

theorem endsInComponent_join (isName : IsName name) (p : Path) : (p.join name).EndsInComponent := by
  obtain ⟨before, joined, _⟩ := p.segments_join isName
  exact ⟨before, name.toList, joined, by rw [isName.named]; rfl⟩

theorem filter_components (p : Path) :
    p.components.filter Component.leads = p.segments.filterMap Component.ofSegment? := by
  have all : (p.segments.filterMap Component.ofSegment?).filter Component.leads =
      p.segments.filterMap Component.ofSegment? := by
    apply List.filter_eq_self.mpr
    intro component mem
    obtain ⟨segment, _, found⟩ := List.mem_filterMap.mp mem
    exact Component.leads_of_ofSegment? found
  rw [components]
  split
  · simp [Component.leads, all]
  · split <;> simp [Component.leads, all]

theorem head?_components (p : Path) : (p.components.head? == some .root) = p.isAbsolute := by
  rw [components]
  cases absolute : p.isAbsolute with
  | true => rfl
  | false =>
    simp only [Bool.false_eq_true, if_false, beq_eq_false_iff_ne]
    split
    · simp
    · intro first
      obtain ⟨segment, _, found⟩ := List.mem_filterMap.mp (List.mem_of_head? first)
      cases Component.leads_of_ofSegment? found

end Path

namespace FileSystem

/-- A segment leads on as its component does; without one it leads nowhere else. -/
def enter (fs : FileSystem) (l : Location) (component : Option Component) :
    Except FileFault Location :=
  match fs.kindAt? l with
  | none => .error .notFound
  | some .file => .error .notDirectory
  | some .directory =>
      match component with
      | some (.name name) => .ok (l ++ [String.ofList name])
      | some .parent => .ok l.dropLast
      | _ => .ok l

theorem follow_eq (fs : FileSystem) (l : Location) (segment : List Char) :
    fs.follow l segment = fs.enter l (Component.ofSegment? segment) := rfl

/-- Staying in a place asks of it no more than going on from there. -/
theorem enter_none_bind (fs : FileSystem) (l : Location) (component : Component) :
    (fs.enter l none >>= fun l => fs.enter l (some component)) = fs.enter l (some component) := by
  unfold enter
  cases kind : fs.kindAt? l with
  | none => rfl
  | some kind' =>
    cases kind' with
    | file => rfl
    | directory => simp [bind, Except.bind, kind]

theorem foldlM_follow (fs : FileSystem) (segments : List (List Char)) (last : List Char)
    (ends : (Component.ofSegment? last).isSome) (l : Location) :
    (segments ++ [last]).foldlM fs.follow l =
      ((segments ++ [last]).filterMap Component.ofSegment?).foldlM
        (fun l component => fs.enter l (some component)) l := by
  induction segments generalizing l with
  | nil =>
    obtain ⟨component, found⟩ := Option.isSome_iff_exists.mp ends
    simp [follow_eq, found]
  | cons segment segments ih =>
    rw [List.cons_append, List.foldlM_cons, follow_eq]
    cases found : Component.ofSegment? segment with
    | some component => simp [found, ih]
    | none =>
      have onward : (segments ++ [last]).filterMap Component.ofSegment? ≠ [] := by
        intro none
        simp only [List.filterMap_append, List.append_eq_nil_iff] at none
        simp_all
      obtain ⟨component, components, next⟩ := List.exists_cons_of_ne_nil onward
      rw [List.filterMap_cons_none found]
      simp only [ih, next, List.foldlM_cons]
      rw [← bind_assoc, enter_none_bind]

theorem locate_eq (fs : FileSystem) (ends : p.EndsInComponent) :
    fs.locate p = (p.components.filter Component.leads).foldlM
      (fun l component => fs.enter l (some component))
      (if p.components.head? == some .root then [] else fs.workingDirectory) := by
  obtain ⟨before, last, split, isComponent⟩ := ends
  have inhabited : p.text.isEmpty = false := by
    rw [← Bool.not_eq_true, String.isEmpty_iff]
    intro empty
    have single : p.segments = [[]] := by simp [Path.segments, empty, Text.splitAt]
    have last : last = [] := by
      rw [split] at single
      simpa using congrArg List.getLast? single
    rw [last] at isComponent
    cases isComponent
  rw [locate, inhabited, p.head?_components, p.filter_components, split,
    foldlM_follow _ _ _ isComponent]
  rfl

/-- Paths of the same components lead to the same place, if a last slash or dot asks for
nothing more of it. -/
theorem locate_eq_of_components (fs : FileSystem) {q : Path} (ends : p.EndsInComponent)
    (ends' : q.EndsInComponent) (same : p.components = q.components) :
    fs.locate p = fs.locate q := by
  rw [fs.locate_eq ends, fs.locate_eq ends', same]

end FileSystem

end CSharpTidy
