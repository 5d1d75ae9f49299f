import CSharpTidy.Proofs.Ordering
import CSharpTidy.Proofs.SpacedParts

/- When organizing leaves a text alone: exactly if its declarations are in order already and its
   blanks are as spacing asks. -/
namespace CSharpTidy

variable {file : SourceFile} {source s out t : List Char} {ending : String} {options : Options}
  {solid : List Part} {marked : Bool} {p : Part} {k : Nat} {x : Char}

namespace Part

theorem packed_of_ahead_le (lexed : p.Lexed)
    (h : p.ahead.length ≤ (Span.text p.leading.stripLeading.blanksBefore).toList.length) :
    p.leading.Packed := by
  obtain ⟨dropped, blanks⟩ := p.leading.exists_blanksBefore
  have mem : ∀ t ∈ dropped, t ∈ p.leading.blanksBefore := by
    intro t mem
    rw [blanks]
    exact List.mem_append_left _ mem
  have none : dropped = [] := by
    refine Span.text_eq_nil (fun t found => lexed.leading.pieces t (Span.blanksBefore_subset _ t
      (mem t found))) (fun t found => Span.blanksBefore_blank t (mem t found)) ?_
    rw [ahead, blanks, Span.text_append, String.toList_append, List.length_append] at h
    exact List.length_eq_zero_iff.mp (by omega)
  rw [Span.Packed, blanks, none, List.nil_append]
  exact Span.packed_stripLeading p.leading

/-- How the first part of a file is spaced: the blank line that spacing puts in front of it is
trimmed off. `v` is what the core has in front of its first solid character. -/
theorem start_iff (terminator : IsTerminator ending) (lexed : p.Lexed) (flat : p.indent = none)
    {v : List Char} (trimmed : Text.trimStart (p.ahead ++ v) = p.ahead ++ v)
    {unmark : List Char → List Char} (shorter : ∀ s, (unmark s).length ≤ s.length)
    (kept : unmark (p.ahead ++ v) = p.ahead ++ v)
    (keptEnding : ∀ s, unmark (ending.toList ++ s) = ending.toList ++ s) :
    p.ahead ++ v = Text.trimStart (unmark ((p.space ending).ahead ++ v)) ↔
      p.spacing.Holds ending p.leading ∨ p.leading.Packed := by
  rw [ahead_space_of_none ending flat]
  constructor
  · intro same
    have short := congrArg List.length same
    cases spacing : p.spacing with
    | free => exact .inl trivial
    | packed =>
      refine .inr (packed_of_ahead_le lexed ?_)
      rw [spacing, Spacing.apply_packed] at short
      have unmarked := shorter ((Span.text p.leading.stripLeading.blanksBefore).toList ++ v)
      have trim := Text.trimStart_length_le
        (unmark ((Span.text p.leading.stripLeading.blanksBefore).toList ++ v))
      simp only [List.length_append] at short unmarked
      omega
    | spaced =>
      refine .inr (packed_of_ahead_le lexed ?_)
      rw [spacing, Spacing.apply_spaced, Spacing.text_blanksBefore_oneLeading, List.append_assoc,
        keptEnding, Text.trimStart_append_of_blank terminator.isBlank] at short
      have trim := Text.trimStart_length_le
        ((Span.text p.leading.stripLeading.blanksBefore).toList ++ v)
      simp only [List.length_append] at short trim
      omega
  · intro start
    have strip : p.leading.Packed → p.leading.stripLeading = p.leading :=
      lexed.leading.stripLeading_of_packed
    cases spacing : p.spacing with
    | free => rw [Spacing.apply_free, ← ahead, kept, trimmed]
    | packed =>
      rw [spacing] at start
      rw [Spacing.apply_packed, strip (start.elim id id), ← ahead, kept, trimmed]
    | spaced =>
      rw [spacing] at start
      rcases start with ⟨rest, line, -⟩ | packed
      · -- a file that starts with a line end is not trimmed
        obtain ⟨a, more, text, -⟩ := terminator.exists_cons
        have head : (p.ahead ++ v).head? = some a := by
          rw [ahead, line, Span.blanksBefore, List.takeWhile_cons_of_pos (by rfl), Span.text_cons,
            String.toList_append]
          simp [Trivia.lineEnd, text]
        have solid := (Text.trimStart_eq_self_iff _).mp trimmed a head
        rw [terminator.isBlank a (by simp [text])] at solid
        cases solid
      · rw [Spacing.apply_spaced, Spacing.text_blanksBefore_oneLeading, strip packed, ← ahead,
          List.append_assoc, keptEnding, Text.trimStart_append_of_blank terminator.isBlank, trimmed]

end Part

namespace SourceFile

/-- Spacing has nothing to do in the file, and no blanks are trimmed off its start. -/
structure Spaced (ending : String) (file : SourceFile) : Prop where
  starts : Text.trim file.body.toList = Text.trimEnd file.body.toList
  parts : Part.SpacedAll ending (Span.text file.header) file.root.parts
    (Span.text file.root.closeLeading)

theorem Read.body_eq (read : file.Read solid k) : file.body = Span.text file.header ++
      (Part.printAll file.root.parts ++ Span.text file.root.closeLeading) := by
  rw [body, Block.print_eq_parts, read.openTrailing, read.close, Span.text_nil, String.empty_append,
    String.append_empty]

theorem Read.body_normalize (read : file.Read solid k) (ending : String) :
    (file.normalize ending).body =
      Span.text file.header ++ (Part.printAll (file.root.parts.map (Part.space ending)) ++
        Span.text file.root.closeLeading) := by
  have shut : file.root.opensLine = false := by
    simp [Block.opensLine, read.openTrailing, read.braced]
  have free : file.root.closingSpacing = .free := by simp [Block.closingSpacing, read.braced]
  rw [body, normalize, Block.print_normalize, shut, free, read.openTrailing, read.close,
    Spacing.apply_free, String.append_empty]
  simp [Span.endWhen]

end SourceFile

def unmark (marked : Bool) (s : List Char) : List Char :=
  if marked then s else withoutByteOrderMark s

theorem withoutByteOrderMark_suffix (s : List Char) : withoutByteOrderMark s <:+ s := by
  unfold withoutByteOrderMark
  split
  · exact List.suffix_rfl
  · split
    · exact List.suffix_cons ..
    · exact List.suffix_rfl

theorem unmark_suffix (marked : Bool) (s : List Char) : unmark marked s <:+ s := by
  cases marked with
  | false => exact withoutByteOrderMark_suffix s
  | true => exact List.suffix_rfl

theorem unmark_of_head (h : marked = false → s.head? ≠ some byteOrderMark) :
    unmark marked s = s := by
  cases marked with
  | true => rfl
  | false =>
    cases s with
    | nil => rfl
    | cons a s =>
      have : a ≠ byteOrderMark := by simpa using h rfl
      simp [unmark, withoutByteOrderMark, this]

theorem unmark_append_cons (marked : Bool) (s : List Char) (h : isVoid x = false) (t : List Char) :
    unmark marked (s ++ x :: t) = unmark marked s ++ x :: t := by
  have solid : x ≠ byteOrderMark := by
    rintro rfl
    exact absurd h (by decide)
  cases marked with
  | true => rfl
  | false =>
    cases s with
    | nil => simp [unmark, withoutByteOrderMark, solid]
    | cons a s =>
      simp only [unmark, withoutByteOrderMark, List.cons_append, Bool.false_eq_true, if_false]
      split <;> rfl

theorem unmark_ending (marked : Bool) (terminator : IsTerminator ending) (s : List Char) :
    unmark marked (ending.toList ++ s) = ending.toList ++ s := by
  refine unmark_of_head fun _ => ?_
  rcases terminator with rfl | rfl | rfl <;> simp [byteOrderMark]

theorem Part.start_text_iff (terminator : IsTerminator ending) (lexed : p.Lexed)
    (flat : p.indent = none) {header : String} {v : List Char} (void : ∀ c ∈ v, isVoid c)
    (solid : isVoid x = false)
    (trimmed : Text.trimStart (header.toList ++ (p.ahead ++ v)) = header.toList ++ (p.ahead ++ v))
    (unmarked : unmark marked (header.toList ++ (p.ahead ++ v)) = header.toList ++ (p.ahead ++ v)) :
    header.toList ++ (p.ahead ++ v) ++ x :: s =
        Text.trimStart (unmark marked (header.toList ++ ((p.space ending).ahead ++ v))) ++ x :: t ↔
      (p.spacing.Holds ending p.leading ∨ header = "" ∧ p.leading.Packed) ∧ s = t := by
  have inside : p.Inside := fun indented => absurd flat indented
  have voidAhead := lexed.isVoid_ahead
  have voidSpaced := lexed.isVoid_ahead_space terminator inside
  by_cases empty : header = ""
  · rw [empty, String.toList_empty, List.nil_append] at trimmed unmarked
    have start := start_iff terminator lexed flat trimmed
      (fun s => (unmark_suffix marked s).length_le) unmarked (unmark_ending marked terminator)
    simp only [empty, String.toList_empty, List.nil_append, true_and]
    rw [← start]
    constructor
    · intro same
      refine gap_cancel (v := []) (List.forall_mem_append.mpr ⟨voidAhead, void⟩) ?_ (by simp) solid same
      intro c mem
      have inside := (unmark_suffix marked _).subset ((List.dropWhile_suffix _).subset mem)
      exact List.forall_mem_append.mpr ⟨voidSpaced, void⟩ c inside
    · rintro ⟨same, rfl⟩
      rw [same]
  · have nonempty : header.toList ≠ [] := by simpa using empty
    obtain ⟨a, more, text⟩ := List.exists_cons_of_ne_nil nonempty
    -- the header is trimmed and unmarked, whatever stands behind it
    have kept : Text.trimStart (unmark marked (header.toList ++ ((p.space ending).ahead ++ v))) =
        header.toList ++ ((p.space ending).ahead ++ v) := by
      rw [text, List.cons_append] at trimmed unmarked
      have plain : marked = false → a ≠ byteOrderMark := by
        rintro rfl rfl
        have := congrArg List.length unmarked
        simp [unmark, withoutByteOrderMark] at this
      have first := (Text.trimStart_eq_self_iff _).mp trimmed a rfl
      rw [text, List.cons_append, unmark_of_head (by simpa using plain),
        Text.trimStart_eq_self_iff]
      simpa using first
    simp only [empty, false_and, or_false]
    rw [kept]
    constructor
    · intro same
      rw [List.append_assoc, List.append_assoc, List.append_assoc, List.append_assoc,
        List.append_cancel_left_eq] at same
      obtain ⟨gaps, texts⟩ := gap_cancel voidAhead voidSpaced void solid same
      rw [ahead_space_of_none ending flat] at gaps
      exact ⟨Spacing.holds_of_text terminator lexed.leading gaps, texts⟩
    · rintro ⟨holds, rfl⟩
      have same : (p.space ending).ahead = p.ahead := by
        rw [ahead_space_of_none ending flat, Spacing.apply_of_holds lexed.leading holds, ahead]
      rw [same]

namespace SourceFile

theorem Read.trim_iff (read : file.Read solid k) (terminator : IsTerminator ending)
    (unmarked : file.byteOrderMark = false → file.body.toList.head? ≠ some CSharpTidy.byteOrderMark)
    (starts : Text.trim file.body.toList = Text.trimEnd file.body.toList) :
    Text.trim file.body.toList =
        Text.trim (unmark file.byteOrderMark (file.normalize ending).body.toList) ↔
      Part.SpacedAll ending (Span.text file.header) file.root.parts
        (Span.text file.root.closeLeading) := by
  cases solid with
  | nil =>
    obtain ⟨rfl, none⟩ := read.empty rfl
    have parts := read.parts
    rw [List.nil_append, List.replicate_zero] at parts
    have same : (file.normalize ending).body = file.body := by
      rw [read.body_normalize, read.body_eq, parts]
      rfl
    rw [same, unmark_of_head unmarked, parts]
    simp [Part.SpacedAll]
  | cons p rest =>
    have lexed := read.lexed p (by simp)
    have flat := read.first p rfl
    have inside : p.Inside := fun indented => absurd flat indented
    obtain ⟨v, x, core, split, void, solid⟩ := lexed.exists_core
    have blank := not_isBlank_of_solid solid
    have parts : file.root.parts = p :: (rest ++ List.replicate k Part.hollow) := read.parts
    have text : file.body.toList = ((Span.text file.header).toList ++ (p.ahead ++ v)) ++
        x :: (core ++ (p.behind ++ ((Part.printAll (rest ++ List.replicate k Part.hollow)).toList ++
          (Span.text file.root.closeLeading).toList))) := by
      simp [read.body_eq, parts, Part.printAll, Part.print_toList, split]
    have spaced : (file.normalize ending).body.toList =
        ((Span.text file.header).toList ++ ((p.space ending).ahead ++ v)) ++
        x :: (core ++ ((p.space ending).behind ++ ((Part.printAll
          ((rest ++ List.replicate k Part.hollow).map (Part.space ending))).toList ++
            (Span.text file.root.closeLeading).toList))) := by
      simp [read.body_normalize, parts, Part.printAll, Part.print_toList,
        Part.core_space ending inside, split]
    have started : Span.text file.header ++ p.print ≠ "" := by
      intro empty
      have := congrArg String.toList empty
      simp [Part.print_toList, split] at this
    have behind := Part.trimEnd_behind_iff terminator k read.lexed read.chained core started
    rw [text] at unmarked
    rw [text, Text.trim_append_cons _ blank, Text.trimEnd_append_cons _ blank,
      List.append_cancel_right_eq] at starts
    rw [text, spaced, unmark_append_cons _ _ solid, Text.trim_append_cons _ blank,
      Text.trim_append_cons _ blank, starts,
      Part.start_text_iff terminator lexed flat void solid starts ?_, behind, parts, Part.SpacedAll]
    · constructor
      · rintro ⟨start, finish, all⟩
        exact ⟨⟨start, by simp [flat], finish⟩, all⟩
      · rintro ⟨⟨start, -, finish⟩, all⟩
        exact ⟨start, finish, all⟩
    · refine unmark_of_head fun plain head => unmarked plain ?_
      rw [List.head?_append, head]
      rfl

def mark (file : SourceFile) : List Char :=
  if file.byteOrderMark then [CSharpTidy.byteOrderMark] else []

theorem print_toList (file : SourceFile) : file.print.toList = file.mark ++ file.body.toList := by
  rw [print, String.append_assoc, ← body, String.toList_append, mark]
  cases file.byteOrderMark <;> simp

theorem withoutByteOrderMark_print (file : SourceFile) :
    withoutByteOrderMark file.print.toList = unmark file.byteOrderMark file.body.toList := by
  rw [print_toList, mark]
  cases file.byteOrderMark with
  | false => rfl
  | true => simp [withoutByteOrderMark, unmark]

theorem parse_mark {symbols : List String} (h : parse source symbols = .ok file) :
    source = file.mark ++ file.body.toList ∧
      (file.byteOrderMark = false → file.body.toList.head? ≠ some CSharpTidy.byteOrderMark) := by
  obtain ⟨marked, text⟩ := parse_body h
  rw [text, String.toList_ofList, mark, marked]
  by_cases head : source.head? = some CSharpTidy.byteOrderMark
  · obtain ⟨rest, rfl⟩ := List.head?_eq_some_iff.mp head
    simp
  · simp [head]

end SourceFile

theorem organize_of_parse (h : SourceFile.parse source options.definedSymbols = .ok file) :
    organize options source = .ok (file.mark ++ Text.trim (unmark file.byteOrderMark
      ((file.reorganize options.standardPrefixes).normalize
        (options.lineEnding.resolve source)).body.toList) ++
          (options.lineEnding.resolve source).toList) := by
  simp only [organize, h, SourceFile.withoutByteOrderMark_print]
  rfl

theorem SourceFile.trimEnd_mark (file : SourceFile) (s : List Char) :
    Text.trimEnd (file.mark ++ s) = file.mark ++ Text.trimEnd s := by
  rw [mark]
  cases file.byteOrderMark with
  | false => rfl
  | true => exact Text.trimEnd_append_cons [] (by decide) s

theorem organize_framed (h : organize options source = .ok out) :
 ∃ text, Text.trimEnd text = text ∧
      out = text ++ (options.lineEnding.resolve source).toList := by
  cases read : SourceFile.parse source options.definedSymbols with
  | error e => simp [organize, read] at h
  | ok file =>
    rw [organize_of_parse read] at h
    cases h
    exact ⟨_, by rw [SourceFile.trimEnd_mark, Text.trimEnd_trim], rfl⟩

/-- A text in that form has one line ending only. -/
theorem framed_inj {a b : String} (terminatorA : IsTerminator a) (terminatorB : IsTerminator b)
    (trimmedS : Text.trimEnd s = s) (trimmedT : Text.trimEnd t = t)
    (h : s ++ a.toList = t ++ b.toList) : s = t ∧ a = b := by
  have trimmed := congrArg Text.trimEnd h
  rw [Text.trimEnd_append_of_blank _ terminatorA.isBlank,
    Text.trimEnd_append_of_blank _ terminatorB.isBlank, trimmedS, trimmedT] at trimmed
  rw [trimmed, List.append_cancel_left_eq, String.toList_inj] at h
  exact ⟨trimmed, h⟩

def SourceFile.tidied (roots : List String) (ending : String) (file : SourceFile) : List Char :=
  Text.trim (unmark file.byteOrderMark ((file.reorganize roots).normalize ending).body.toList)

/-- A run moves declarations, but what it prints reads the same. -/
structure SourceFile.Trades (roots : List String) (ending : String) (file : SourceFile) : Prop where
  moved : ¬ file.Arranged roots
  same : file.tidied roots ending = Text.trimEnd file.body.toList

theorem organize_eq_self_iff {text : List Char}
    (read : SourceFile.parse text options.definedSymbols = .ok file) :
    organize options text = .ok text ↔ file.body.toList =
      file.tidied options.standardPrefixes (options.lineEnding.resolve text) ++
        (options.lineEnding.resolve text).toList := by
  obtain ⟨whole, -⟩ := SourceFile.parse_mark read
  rw [organize_of_parse read, Except.ok.injEq, ← SourceFile.tidied]
  nth_rewrite 3 [whole]
  rw [List.append_assoc, List.append_cancel_left_eq, eq_comm]

/-- Where nothing is moved, a run changes nothing exactly if the blanks are as spacing asks. -/
theorem SourceFile.tidied_eq_iff {symbols : List String} (read : parse source symbols = .ok file)
    {roots : List String} (terminator : IsTerminator ending) (arranged : file.Arranged roots)
    (framed : file.body.toList = Text.trimEnd file.body.toList ++ ending.toList) :
    file.tidied roots ending = Text.trimEnd file.body.toList ↔ file.Spaced ending := by
  obtain ⟨-, unmarked⟩ := parse_mark read
  obtain ⟨solid, k, known⟩ := parse_read read
  rw [tidied, (reorganize_eq_self_iff ..).mpr arranged]
  constructor
  · intro same
    have starts : Text.trim file.body.toList = Text.trimEnd file.body.toList := by
      rw [framed, ← same]
      rw [Text.trimEnd_append_of_blank _ terminator.isBlank, Text.trimEnd_trim]
      exact Text.trim_append_of_trimmed (Text.trimStart_trim _) (Text.trimEnd_trim _)
        terminator.isBlank
    exact ⟨starts, (known.trim_iff terminator unmarked starts).mp (starts.trans same.symm)⟩
  · rintro ⟨starts, parts⟩
    rw [← starts]
    exact ((known.trim_iff terminator unmarked starts).mpr parts).symm

/-- The result of a run is given back by the next one exactly if its line ending is still the same
and its declarations are in order with blanks as spacing asks, or else trade places unseen. -/
theorem organize_fixed_iff (first : organize options source = .ok out) :
    organize options out = .ok out ↔
      options.lineEnding.resolve out = options.lineEnding.resolve source ∧
        ∃ file, SourceFile.parse out options.definedSymbols = .ok file ∧
          (file.Arranged options.standardPrefixes ∧
              file.Spaced (options.lineEnding.resolve source) ∨
            file.Trades options.standardPrefixes (options.lineEnding.resolve source)) := by
  obtain ⟨text, trimmed, framed⟩ := organize_framed first
  have terminator := options.lineEnding.resolve_isTerminator source
  have body : ∀ {file : SourceFile}, SourceFile.parse out options.definedSymbols = .ok file →
      file.body.toList = Text.trimEnd file.body.toList ++
        (options.lineEnding.resolve source).toList := by
    intro file read
    obtain ⟨whole, -⟩ := SourceFile.parse_mark read
    have cut := congrArg Text.trimEnd framed
    rw [Text.trimEnd_append_of_blank _ terminator.isBlank, trimmed, whole,
      SourceFile.trimEnd_mark] at cut
    have text := framed
    rw [whole, ← cut, List.append_assoc, List.append_cancel_left_eq] at text
    exact text
  constructor
  · intro again
    obtain ⟨text', trimmed', framed'⟩ := organize_framed again
    obtain ⟨-, ending⟩ := framed_inj (options.lineEnding.resolve_isTerminator out) terminator
      trimmed' trimmed (framed'.symm.trans framed)
    cases read : SourceFile.parse out options.definedSymbols with
    | error e => simp [organize, read] at again
    | ok file =>
      refine ⟨ending, file, rfl, ?_⟩
      have same := (organize_eq_self_iff read).mp again
      rw [ending, body read, List.append_cancel_right_eq] at same
      by_cases arranged : file.Arranged options.standardPrefixes
      · refine .inl ⟨arranged, ?_⟩
        exact (SourceFile.tidied_eq_iff read terminator arranged (body read)).mp same.symm
      · exact .inr ⟨arranged, same.symm⟩
  · rintro ⟨ending, file, read, known⟩
    have same : file.tidied options.standardPrefixes (options.lineEnding.resolve source) =
        Text.trimEnd file.body.toList := by
      rcases known with ⟨arranged, spaced⟩ | trades
      · exact (SourceFile.tidied_eq_iff read terminator arranged (body read)).mpr spaced
      · exact trades.same
    rw [organize_eq_self_iff read, ending, same]
    exact body read

end CSharpTidy
