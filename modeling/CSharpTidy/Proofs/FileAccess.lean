import CSharpTidy.Files.FileSystem
import Mathlib.Logic.Function.Basic

/- Reading files, and writing files that are there. Such writes change the bytes of single files
   and nothing else: no entry comes or goes, so every path leads where it led. -/
namespace CSharpTidy

namespace FileSystem

variable {fs : FileSystem} {p q : Path} {l : Location} {bytes : ByteArray}

theorem read_eq_ok_iff :
    fs.read p = .ok bytes ↔ ∃ l, fs.locate p = .ok l ∧ fs.bytesAt? l = some bytes := by
  unfold read
  cases fs.locate p with
  | error fault => simp
  | ok l =>
    cases found : fs.bytesAt? l with
    | some content => simp [found]
    | none =>
      simp only [Except.ok.injEq, exists_eq_left', found, reduceCtorEq, iff_false]
      split <;> simp

theorem kindAt?_of_bytesAt? (found : fs.bytesAt? l = some bytes) : fs.kindAt? l = some .file := by
  simp [kindAt?, found]

theorem isFile_of_read (done : fs.read p = .ok bytes) : fs.isFile p = true := by
  obtain ⟨l, located, found⟩ := read_eq_ok_iff.mp done
  simp [isFile, kind?, located, kindAt?_of_bytesAt? found]

theorem readText_eq_ok {text : List Char} (done : fs.readText p = .ok text) :
    ∃ bytes, fs.read p = .ok bytes ∧ decodeText bytes = .ok text := by
  unfold readText at done
  split at done
  · cases done
  · rename_i bytes read
    exact ⟨bytes, read, done⟩

variable {fs' : FileSystem}

theorem readText_congr (same : fs.read p = fs'.read p) : fs.readText p = fs'.readText p := by
  rw [readText, readText, same]

theorem size_congr (same : fs.read p = fs'.read p) : fs.size p = fs'.size p := by
  rw [size, size, same]

/-- The file system with other bytes in some of its files. -/
def overlay (fs : FileSystem) (written : Location → Option ByteArray) : FileSystem :=
  { fs with files := fs.files.map fun f => (f.1, (written f.1).getD f.2) }

variable {written written' : Location → Option ByteArray}

theorem overlay_none : fs.overlay (fun _ => none) = fs := by
  simp [overlay]

theorem bytesAt?_overlay :
    (fs.overlay written).bytesAt? l = (fs.bytesAt? l).map fun old => (written l).getD old := by
  simp only [bytesAt?, overlay, List.find?_map, Option.map_map]
  cases found : fs.files.find? ((fun f => f.1 == l) ∘ fun f => (f.1, (written f.1).getD f.2)) with
  | none =>
    have none : fs.files.find? (fun f => f.1 == l) = none := found
    simp [none]
  | some f =>
    have some : fs.files.find? (fun f => f.1 == l) = some f := found
    have here : f.1 = l := by simpa using List.find?_some some
    simp [some, here]

theorem isDirectoryAt_overlay : (fs.overlay written).isDirectoryAt l = fs.isDirectoryAt l := by
  simp [isDirectoryAt, overlay, Function.comp_def]

theorem kindAt?_overlay : (fs.overlay written).kindAt? l = fs.kindAt? l := by
  simp only [kindAt?, bytesAt?_overlay, Option.isSome_map, isDirectoryAt_overlay]

theorem follow_overlay : (fs.overlay written).follow = fs.follow := by
  funext l segment
  simp only [follow, kindAt?_overlay]

theorem locate_overlay : (fs.overlay written).locate p = fs.locate p := by
  simp only [locate, follow_overlay]
  rfl

theorem kind?_overlay : (fs.overlay written).kind? p = fs.kind? p := by
  simp only [kind?, locate_overlay, kindAt?_overlay]

theorem isFile_overlay : (fs.overlay written).isFile p = fs.isFile p := by
  simp only [isFile, kind?_overlay]

theorem isDirectory_overlay : (fs.overlay written).isDirectory p = fs.isDirectory p := by
  simp only [isDirectory, kind?_overlay]

theorem read_of_locate (same : fs.locate p = fs.locate q) : fs.read p = fs.read q := by
  rw [read, read, same]

theorem read_overlay_congr (same : ∀ l, fs.locate p = .ok l → written l = written' l) :
    (fs.overlay written).read p = (fs.overlay written').read p := by
  simp only [read, locate_overlay]
  split
  · rfl
  · rename_i l located
    simp only [bytesAt?_overlay, isDirectoryAt_overlay, same l located]

theorem write_overlay (located : fs.locate p = .ok l) (present : (fs.bytesAt? l).isSome) :
    (fs.overlay written).write p bytes = fs.overlay (Function.update written l (some bytes)) := by
  have present' : ((fs.overlay written).bytesAt? l).isSome := by
    simpa only [bytesAt?_overlay, Option.isSome_map] using present
  simp only [write, locate_overlay, located, writeAt, present', if_true]
  simp only [overlay, List.map_map]
  congr 1
  apply List.map_congr_left
  intro f _
  by_cases here : f.1 = l
  · subst here
    simp
  · simp [here]

theorem read_write {old : ByteArray} (content : fs.read p = .ok old) :
    (fs.write p bytes).read p = .ok bytes := by
  obtain ⟨l, located, found⟩ := read_eq_ok_iff.mp content
  have wrote : (fs.overlay fun _ => none).write p bytes = _ :=
    write_overlay located (by simp [found])
  rw [overlay_none] at wrote
  rw [wrote, read_eq_ok_iff]
  exact ⟨l, locate_overlay.trans located, by simp [bytesAt?_overlay, found]⟩

def sameFile (fs : FileSystem) (p q : Path) : Bool :=
  match fs.locate p, fs.locate q with
  | .ok l, .ok l' => l == l' && (fs.bytesAt? l).isSome
  | _, _ => false

theorem sameFile_iff : fs.sameFile p q = true ↔
    ∃ l, fs.locate p = .ok l ∧ fs.locate q = .ok l ∧ (fs.bytesAt? l).isSome = true := by
  unfold sameFile
  split
  · rename_i l l' here there
    simp only [here, there, Except.ok.injEq, Bool.and_eq_true, beq_iff_eq]
    constructor
    · rintro ⟨rfl, present⟩
      exact ⟨l, rfl, rfl, present⟩
    · rintro ⟨_, rfl, rfl, present⟩
      exact ⟨rfl, present⟩
  · rename_i apart
    simp only [Bool.false_eq_true, false_iff]
    rintro ⟨l, here, there, _⟩
    exact apart l l here there

theorem sameFile_comm : fs.sameFile p q = fs.sameFile q p := by
  rw [Bool.eq_iff_iff, sameFile_iff, sameFile_iff]
  constructor <;> exact fun ⟨l, here, there, present⟩ => ⟨l, there, here, present⟩

theorem present_of_isFile (file : fs.isFile p = true) :
    ∃ l, fs.locate p = .ok l ∧ (fs.bytesAt? l).isSome = true := by
  unfold isFile kind? at file
  split at file
  · rename_i l located
    refine ⟨l, located, ?_⟩
    unfold kindAt? at file
    split at file
    · assumption
    · split at file <;> simp at file
  · cases file

end FileSystem

theorem decodeText_encodeText (text : List Char) : decodeText (encodeText text) = .ok text := by
  have valid : (String.ofList text).toByteArray.IsValidUTF8 := (String.ofList text).isValidUTF8
  have read : String.fromUTF8? (encodeText text) = some (String.ofList text) := dif_pos valid
  simp [decodeText, read]

end CSharpTidy
