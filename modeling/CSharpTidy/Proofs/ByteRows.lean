import CSharpTidy.Files.Fault
import CSharpTidy.Proofs.DirectiveMarker

/- Rows of bytes. The byte of a line feed stands in no other character, so text that is read as
   bytes has the same rows, and the same directive to the tool. -/
namespace CSharpTidy

namespace Text

def bytes (s : List Char) : List UInt8 :=
  s.flatMap String.utf8EncodeChar

theorem bytes_append (s t : List Char) : bytes (s ++ t) = bytes s ++ bytes t :=
  List.flatMap_append

variable {s : List Char}

theorem eq_nil_of_bytes (empty : bytes s = []) : s = [] := by
  cases s with
  | nil => rfl
  | cons c s =>
    have none := List.flatMap_eq_nil_iff.mp empty c List.mem_cons_self
    exact absurd none String.utf8EncodeChar_ne_nil

theorem encodeText_data (s : List Char) : (encodeText s).data.toList = bytes s := by
  have whole : encodeText s = s.utf8Encode := String.toByteArray_ofList
  rw [whole, List.utf8Encode, List.data_toByteArray]
  rfl

theorem decode?_bytes (s : List Char) : FileDirective.decode? (bytes s) = some s := by
  have data : ByteArray.mk (bytes s).toArray = encodeText s := by
    rw [← encodeText_data]
  have valid : (String.ofList s).toByteArray.IsValidUTF8 := (String.ofList s).isValidUTF8
  have read : String.fromUTF8? (encodeText s) = some (String.ofList s) := dif_pos valid
  simp [FileDirective.decode?, data, read]

theorem lineFeed_not_mem_utf8EncodeChar {c : Char} (other : c ≠ '\n') :
    10 ∉ String.utf8EncodeChar c := by
  have code : c.val.toNat ≠ 10 := by
    intro same
    exact other (Char.ext (UInt32.toNat_inj.mp same))
  have byte : ∀ n, (10 = UInt8.ofNat n) → n % 256 = 10 := by
    intro n same
    simpa using (congrArg UInt8.toNat same).symm
  intro mem
  unfold String.utf8EncodeChar at mem
  dsimp only at mem
  split at mem
  · have := byte _ (List.mem_singleton.mp mem)
    omega
  · -- all bytes of a longer code are at least 128
    split at mem
    · simp only [List.mem_cons, List.not_mem_nil, or_false] at mem
      rcases mem with same | same <;> have := byte _ same <;> omega
    · split at mem
      · simp only [List.mem_cons, List.not_mem_nil, or_false] at mem
        rcases mem with same | same | same <;> have := byte _ same <;> omega
      · simp only [List.mem_cons, List.not_mem_nil, or_false] at mem
        rcases mem with same | same | same | same <;> have := byte _ same <;> omega

theorem lineFeed_not_mem_bytes (single : '\n' ∉ s) : 10 ∉ bytes s := by
  intro mem
  obtain ⟨c, memC, mem⟩ := List.mem_flatMap.mp mem
  apply lineFeed_not_mem_utf8EncodeChar _ mem
  rintro rfl
  exact single memC

end Text

namespace FileDirective

open Text

theorem byteLines_append {row : List UInt8} (single : 10 ∉ row) (line rest : List UInt8) :
    byteLines line (row ++ rest) = byteLines (row.reverse ++ line) rest := by
  induction row generalizing line with
  | nil => rfl
  | cons b row ih =>
    obtain ⟨other, single⟩ : 10 ≠ b ∧ 10 ∉ row := by simpa using single
    have other : (b == 10) = false := by simpa using other.symm
    rw [List.cons_append, byteLines, other, if_neg (by decide), ih single]
    simp

theorem text?_lineFeed (row : List Char) :
    text? (withoutMarks (row ++ ['\n'])) = text? (withoutMarks row) := by
  rw [withoutMarks_append_cons row (by decide)]
  exact text?_append_blank _ (by simp; decide)

/-- The rows of bytes that are text, up to the first one that is none. -/
def textRows (lines : List (List UInt8)) : List (List Char) :=
  ((lines.map decode?).takeWhile Option.isSome).filterMap id

theorem textRows_cons (row : List Char) (lines : List (List UInt8)) :
    textRows (bytes row :: lines) = row :: textRows lines := by
  simp [textRows, decode?_bytes]

variable {row : List Char}

theorem byteLines_single (single : '\n' ∉ row) :
    byteLines [] (bytes row) = if bytes row = [] then [] else [bytes row] := by
  have passed := byteLines_append (lineFeed_not_mem_bytes single) [] []
  rw [List.append_nil, List.append_nil] at passed
  simp [passed, byteLines]

theorem byteLines_cons (single : '\n' ∉ row) (later : List Char) :
    byteLines [] (bytes (row ++ '\n' :: later)) =
      bytes (row ++ ['\n']) :: byteLines [] (bytes later) := by
  have feed : bytes (row ++ '\n' :: later) = bytes row ++ 10 :: bytes later := bytes_append ..
  have line : bytes (row ++ ['\n']) = bytes row ++ [10] := bytes_append ..
  rw [feed, byteLines_append (lineFeed_not_mem_bytes single), line]
  simp [byteLines]

/-- The rows of the bytes of a text, which keep their line feeds, are those of the text to one who
looks for directives. -/
theorem findIn_textRows (s : List Char) :
    findIn (textRows (byteLines [] (bytes s))) = findIn (s.splitOn '\n') := by
  by_cases several : '\n' ∈ s
  · obtain ⟨first, later, rfl, single⟩ := List.eq_append_cons_of_mem several
    have ih := findIn_textRows later
    rw [byteLines_cons single, textRows_cons, List.splitOn_append_cons_self_of_not_mem single,
      findIn, findIn, ih, isDirective, isDirective, parse, parse, text?_lineFeed]
  · rw [byteLines_single several, List.splitOn_eq_singleton several]
    split
    · rename_i empty
      rw [eq_nil_of_bytes empty]
      rfl
    · rw [textRows_cons]
      rfl
termination_by s.length
decreasing_by simp [*]; omega

theorem findInBytes_encodeText (source : List Char) :
    findInBytes (encodeText source).data.toList = find source := by
  rw [encodeText_data, find, splitAt_eq]
  exact findIn_textRows source

end FileDirective

end CSharpTidy
