import CSharpTidy.Proofs.TextPieces

/- The frame of an organized text: the byte order mark of the file, a text without white space at
   its ends, one line ending. A byte order mark further inside is white space to the lexer but not
   to trimming. So one that stands in front of all tokens can come to the front. -/
namespace CSharpTidy

def Unmarked (s : List Char) : Prop :=
  (Text.trimStart s).head? ≠ some byteOrderMark

instance : DecidablePred Unmarked :=
  fun s => inferInstanceAs (Decidable ((Text.trimStart s).head? ≠ some byteOrderMark))

variable {symbols : List String} {file : SourceFile} {source s : List Char} {ending : String}

namespace Unmarked

theorem joins : Joins Unmarked where
  nil := by simp [Unmarked, Text.trimStart]
  append := by
    intro s t first second
    unfold Unmarked Text.trimStart at *
    rw [List.dropWhile_append]
    split
    · exact second
    · rename_i solid
      rwa [List.head?_append_of_ne_nil _ (by simpa using solid)]

theorem of_solid {a : Char} (head : s.head? = some a) (solid : isVoid a = false) : Unmarked s := by
  have kept : Text.trimStart s = s := by
    refine (Text.trimStart_eq_self_iff s).mpr fun c found => ?_
    rw [head, Option.some.injEq] at found
    exact found ▸ not_isBlank_of_solid solid
  rw [Unmarked, kept, head, ne_eq, Option.some.injEq]
  rintro rfl
  exact absurd solid (by decide)

theorem of_isTerminator (h : IsTerminator ending) : Unmarked ending.toList := by
  have nothing : Text.trimStart ending.toList = [] := List.dropWhile_eq_nil_iff.mpr h.isBlank
  simp [Unmarked, nothing]

theorem head_ne (h : Unmarked s) : s.head? ≠ some byteOrderMark := by
  intro head
  refine h ?_
  rwa [(Text.trimStart_eq_self_iff s).mpr]
  intro c found
  rw [head, Option.some.injEq] at found
  exact found ▸ by decide

end Unmarked

/-- No piece of trivia has a byte order mark as its first character that is no white space. -/
structure TokenStream.Unmarked (stream : TokenStream) : Prop where
  tokens : ∀ t ∈ stream.tokens,
    t.leading.Texts CSharpTidy.Unmarked ∧ t.trailing.Texts CSharpTidy.Unmarked
  tail : stream.tail.Texts CSharpTidy.Unmarked

instance (stream : TokenStream) : Decidable stream.Unmarked :=
  decidable_of_iff
    ((∀ t ∈ stream.tokens, (∀ p ∈ t.leading, Unmarked p.text.toList) ∧
      ∀ p ∈ t.trailing, Unmarked p.text.toList) ∧ ∀ p ∈ stream.tail, Unmarked p.text.toList)
    ⟨fun ⟨tokens, tail⟩ => ⟨tokens, tail⟩, fun ⟨tokens, tail⟩ => ⟨tokens, tail⟩⟩

theorem SourceFile.parse_unmarked (h : parse source symbols = .ok file) {stream : TokenStream}
    (tokenized : tokenize (if source.head? == some CSharpTidy.byteOrderMark then source.tail
      else source) symbols = .ok stream) (unmarked : stream.Unmarked) : file.Texts Unmarked := by
  obtain ⟨stream', inner, again, built, rfl⟩ := parse_stream h
  rw [tokenized] at again
  cases again
  have tokens : ∀ t ∈ stream.tokens, t.Texts CSharpTidy.Unmarked := by
    intro t mem
    obtain ⟨a, head, solid⟩ := ((tokenize_lexed tokenized).tokens t mem).text
    exact ⟨(unmarked.tokens t mem).1, .of_solid head solid, (unmarked.tokens t mem).2⟩
  obtain ⟨header, root⟩ := ofTokens_texts Unmarked.joins built tokens unmarked.tail
  exact ⟨header, root⟩

theorem SourceFile.Texts.tidied_head (h : file.Texts Unmarked) (roots : List String)
    (terminator : IsTerminator ending) :
    (file.tidied roots ending).head? ≠ some CSharpTidy.byteOrderMark := by
  have printed := (h.tidy roots (.of_isTerminator terminator)).printed Unmarked.joins
  intro head
  rw [tidied, unmark_of_head fun _ => printed.head_ne, Text.trim] at head
  refine printed ?_
  obtain ⟨rest, whole⟩ := List.rdropWhile_prefix Text.isBlank (Text.trimStart
    ((file.reorganize roots).normalize ending).body.toList)
  rw [← whole, List.head?_append, ← Text.trimEnd_eq, head, Option.some_or]

theorem Text.last_of_trimEnd (h : Text.trimEnd s = s) :
    ∀ c, s.getLast? = some c → Text.isBlank c = false := by
  intro c last
  have trimmed := congrArg List.reverse h
  rw [Text.trimEnd, List.reverse_reverse] at trimmed
  exact (Text.trimStart_eq_self_iff s.reverse).mp trimmed c (List.head?_reverse ▸ last)

/-- A line ending never counts as a byte order mark in front of a text. -/
theorem head_framed (marked : Prop) [Decidable marked] (text : List Char)
    (terminator : IsTerminator ending) :
    ((if marked then [byteOrderMark] else []) ++ text ++ ending.toList).head? =
      some byteOrderMark ↔ marked ∨ text.head? = some byteOrderMark := by
  by_cases known : marked
  · simp [known]
  · cases text with
    | nil => rcases terminator with rfl | rfl | rfl <;> simp [known, byteOrderMark]
    | cons c text => simp [known]

theorem Text.head?_trim (s : List Char) : (Text.trim s).head? = (Text.trimStart s).head? := by
  cases front : Text.trimStart s with
  | nil => rw [Text.trim, front]; rfl
  | cons c rest =>
    have solid : Text.isBlank c = false := by
      have kept : Text.trimStart (Text.trimStart s) = Text.trimStart s :=
        List.dropWhile_idempotent ..
      exact (Text.trimStart_eq_self_iff _).mp kept c (by rw [front]; rfl)
    have trimmed := Text.trimEnd_append_cons [] solid rest
    rw [List.nil_append, List.nil_append] at trimmed
    rw [Text.trim, front, trimmed]
    rfl

/-- What is no white space to anyone ends the part of a text in which a mark can come first. -/
theorem unmarked_append_solid_iff (s : List Char) {a : Char} (solid : isVoid a = false)
    (rest : List Char) : Unmarked (s ++ a :: rest) ↔ Unmarked s := by
  constructor
  · intro whole head
    apply whole
    rw [Text.trimStart_append_cons s (not_isBlank_of_solid solid), List.head?_append, head]
    rfl
  · intro front
    exact Unmarked.joins.append front (.of_solid rfl solid)

theorem Decl.texts_of_forall₂ {R : Decl → Decl → Prop} {as bs : List Decl} (h : List.Forall₂ R as bs)
    (same : ∀ {a b}, R a b → b.text = a.text) : bs.map Decl.text = as.map Decl.text := by
  induction h with
  | nil => rfl
  | cons first _ ih => rw [List.map_cons, List.map_cons, same first, ih]

theorem Decl.printAll_append (ds es : List Decl) :
    Decl.printAll (ds ++ es) = Decl.printAll ds ++ Decl.printAll es := by
  induction ds with
  | nil => simp [Decl.printAll]
  | cons d ds ih => simp [Decl.printAll, ih, String.append_assoc]

theorem Block.Tidied.texts_perm {a b : Block Decl} (h : a.Tidied b) :
    (b.decls.map Decl.text).Perm (a.decls.map Decl.text) := by
  cases h with
  | intro _ _ _ _ importsMatched importsCarried attributes membersMatched bodies membersCarried =>
    have bodied : ∀ {d d' : Decl}, Decl.BodyTidied d d' → d'.text = d.text := by
      intro d d' tidied
      cases tidied <;> rfl
    simp only [Block.decls, List.map_append]
    rw [Decl.texts_of_forall₂ importsCarried (·.text), Decl.texts_of_forall₂ attributes (·.text),
      Decl.texts_of_forall₂ membersCarried (·.text), Decl.texts_of_forall₂ bodies bodied]
    exact ((importsMatched.map _).append_right _).append (membersMatched.map _)

namespace SourceFile

/-- The trivia in front of the first token. -/
def frontTrivia (file : SourceFile) : Span :=
  file.header ++ (file.root.decls.head?.map Decl.leading).getD file.root.closeLeading

theorem decl_solid (h : parse source symbols = .ok file) {d : Decl} (mem : d ∈ file.root.decls) :
    ∃ a, d.text.toList.head? = some a ∧ isVoid a = false := by
  obtain ⟨stream, inner, tokenized, built, rfl⟩ := parse_stream h
  cases (ofTokens_cutFrom built).2 with
  | intro decls =>
    obtain ⟨own, _, nonempty, inside, -, text, -⟩ := (decls d mem).own
    obtain ⟨t, rest, rfl⟩ := List.exists_cons_of_ne_nil nonempty
    have token := PlacedToken.mem_of_mem_place (inside.subset List.mem_cons_self)
    obtain ⟨a, head, solid⟩ := ((tokenize_lexed tokenized).tokens _ token).text
    refine ⟨a, ?_, solid⟩
    rw [text]
    cases rest <;> simp [PlacedToken.join, head]

/-- Behind the trivia in front of it, a tidied text starts with a token or ends. -/
theorem exists_front (h : parse source symbols = .ok file) (roots : List String) (ending : String) :
    let tidy := (file.reorganize roots).normalize ending
    ∃ rest, tidy.body.toList = (Span.text tidy.frontTrivia).toList ++ rest ∧
      (rest = [] ∨ ∃ a more, rest = a :: more ∧ isVoid a = false) := by
  intro tidy
  obtain ⟨solid, k, read⟩ := parse_read h
  have tidied : file.root.Tidied tidy.root := file.root.tidied roots ending
  have opening : tidy.root.openTrailing = [] := (parse_firm h).opening_tidied roots ending
  have close : tidy.root.close = "" := by
    cases tidied with
    | intro _ close => rw [close, read.close]
  have body : tidy.body.toList = (Span.text tidy.header).toList ++
      ((Decl.printAll tidy.root.decls).toList ++ (Span.text tidy.root.closeLeading).toList) := by
    obtain ⟨_, header, ⟨braced, openTrailing, imports, attributes, members, closeLeading, close'⟩⟩ :=
      tidy
    cases opening
    cases close
    simp [SourceFile.body, Block.print, Block.decls, Decl.printAll_append]
  rw [body, frontTrivia]
  cases decls : tidy.root.decls with
  | nil => exact ⟨[], by simp [Decl.printAll], .inl rfl⟩
  | cons d ds =>
    have text : d.text ∈ file.root.decls.map Decl.text :=
      tidied.texts_perm.mem_iff.mp (List.mem_map_of_mem (decls ▸ List.mem_cons_self))
    obtain ⟨d₀, mem, same⟩ := List.mem_map.mp text
    obtain ⟨a, head, void⟩ := decl_solid h mem
    rw [same] at head
    obtain ⟨more, split⟩ := List.head?_eq_some_iff.mp head
    obtain ⟨kind, visibility, key, leading, text, block, trailing, lineIndent⟩ := d
    exact ⟨_, by simp [Decl.printAll, Decl.print, split]; rfl, .inr ⟨a, _, rfl, void⟩⟩

theorem tidied_head_iff (h : parse source symbols = .ok file) (roots : List String)
    (ending : String) : (file.tidied roots ending).head? = some CSharpTidy.byteOrderMark ↔
      ¬ Unmarked (unmark file.byteOrderMark
        (Span.text ((file.reorganize roots).normalize ending).frontTrivia).toList) := by
  obtain ⟨rest, body, ending | ⟨a, more, rfl, solid⟩⟩ := exists_front h roots ending
  · rw [tidied, Text.head?_trim, body, ending, List.append_nil, Unmarked, not_not]
  · rw [tidied, Text.head?_trim, body, unmark_append_cons _ _ solid, ← not_iff_not, not_not]
    exact unmarked_append_solid_iff _ solid more

end SourceFile

/-- Organizing gives a text in its frame. Trimming brings a byte order mark that the source has
inside to the front exactly if the tidied tree has nothing but white space before it; no such mark
is in front of all tokens where the trivia have none. -/
theorem organize_frame {options : Options} {source out : List Char}
    (h : organize options source = .ok out) : ∃ text,
      out = (if source.head? = some byteOrderMark then [byteOrderMark] else []) ++ text ++
        (options.lineEnding.resolve source).toList ∧
      (∀ c, text.head? = some c → Text.isBlank c = false) ∧
      (∀ c, text.getLast? = some c → Text.isBlank c = false) ∧
      (∀ file, SourceFile.parse source options.definedSymbols = .ok file →
        (text.head? = some byteOrderMark ↔
          ¬ Unmarked (unmark (source.head? == some byteOrderMark) (Span.text
            ((file.reorganize options.standardPrefixes).normalize
              (options.lineEnding.resolve source)).frontTrivia).toList))) ∧
      ∀ stream, tokenize (if source.head? == some byteOrderMark then source.tail else source)
          options.definedSymbols = .ok stream → stream.Unmarked →
        (out.head? = some byteOrderMark ↔ source.head? = some byteOrderMark) := by
  cases read : SourceFile.parse source options.definedSymbols with
  | error e => simp [organize, read] at h
  | ok file =>
    rw [organize_of_parse read, ← SourceFile.tidied] at h
    cases h
    have terminator := options.lineEnding.resolve_isTerminator source
    have marked : file.byteOrderMark = (source.head? == some byteOrderMark) :=
      (SourceFile.parse_body read).1
    have mark : file.mark = if source.head? = some byteOrderMark then [byteOrderMark] else [] := by
      simp [SourceFile.mark, marked]
    rw [mark]
    refine ⟨_, rfl, (Text.trimStart_eq_self_iff _).mp (Text.trimStart_trim _),
      Text.last_of_trimEnd (Text.trimEnd_trim _), ?_, ?_⟩
    · rintro file' same
      obtain rfl := Except.ok.inj same
      exact marked ▸ SourceFile.tidied_head_iff read _ _
    · intro stream tokenized unmarked
      have inside := (SourceFile.parse_unmarked read tokenized unmarked).tidied_head
        options.standardPrefixes terminator
      rw [head_framed _ _ terminator, or_iff_left inside]

/-- A mark in a comment stays where it is; one that indents the first line comes to the front. -/
theorem organize_frame_inner_mark :
    (organize {} "\n// \ufeff\nclass C \x7b \x7d".toList =
        .ok "// \ufeff\nclass C \x7b \x7d\n".toList ∧
      ∃ stream, tokenize "\n// \ufeff\nclass C \x7b \x7d".toList [] = .ok stream ∧
        stream.Unmarked ∧ "// \ufeff\nclass C \x7b \x7d\n".toList.head? ≠ some byteOrderMark) ∧
    organize {} "\n\ufeffclass C \x7b \x7d\n".toList = .ok "\ufeffclass C \x7b \x7d\n".toList ∧
      ∃ file text, SourceFile.parse "\n\ufeffclass C \x7b \x7d\n".toList [] = .ok file ∧
        ¬ Unmarked (Span.text ((file.reorganize ["System"]).normalize "\n").frontTrivia).toList ∧
        "\ufeffclass C \x7b \x7d\n".toList = text ++ ['\n'] ∧
        text.head? = some byteOrderMark := by
  have comment : organize {} "\n// \ufeff\nclass C \x7b \x7d".toList =
      .ok "// \ufeff\nclass C \x7b \x7d\n".toList := eq_ok_of_toOption (by decide +kernel)
  have indent : organize {} "\n\ufeffclass C \x7b \x7d\n".toList =
      .ok "\ufeffclass C \x7b \x7d\n".toList := eq_ok_of_toOption (by decide +kernel)
  have trivia : (tokenize "\n// \ufeff\nclass C \x7b \x7d".toList []).toOption.map
      (fun stream => decide stream.Unmarked) = some true := by decide +kernel
  have front : (SourceFile.parse "\n\ufeffclass C \x7b \x7d\n".toList []).toOption.map
      (fun file => (decide (Unmarked
        (Span.text ((file.reorganize ["System"]).normalize "\n").frontTrivia).toList), decide (Unmarked
        (unmark false (Span.text ((file.reorganize ["System"]).normalize "\n").frontTrivia).toList)))) =
      some (false, false) := by decide +kernel
  obtain ⟨stream, found, unmarked⟩ := Option.map_eq_some_iff.mp trivia
  obtain ⟨file, read, marked⟩ := Option.map_eq_some_iff.mp front
  obtain ⟨uncovered, behind⟩ := Prod.mk.inj marked
  obtain ⟨-, -, -, -, -, kept⟩ := organize_frame comment
  obtain ⟨text, framed, -, -, exactly, -⟩ := organize_frame indent
  have tokenized := eq_ok_of_toOption found
  have parsed := eq_ok_of_toOption read
  refine ⟨⟨comment, stream, tokenized, of_decide_eq_true unmarked, fun head => ?_⟩, indent, file,
    text, parsed, of_decide_eq_false uncovered, framed, ?_⟩
  · exact absurd ((kept stream tokenized (of_decide_eq_true unmarked)).mp head) (by decide +kernel)
  · exact (exactly file parsed).mpr (of_decide_eq_false behind)

end CSharpTidy
