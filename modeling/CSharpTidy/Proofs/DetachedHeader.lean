import CSharpTidy.Proofs.SplitLines

/- The header of a file that was read: where it stands among the trivia of the first token, and what
   is in it. -/
namespace CSharpTidy

open CSharpTidy.Span PlacedToken Outline

namespace Outline

theorem Entry.size_le_count (e : Entry) : e.size ≤ e.count := by
  obtain ⟨kind, visibility, key, size, body⟩ := e
  exact Nat.le_add_right ..

theorem Entry.Closed.size {e : Entry} (h : e.Closed) : 0 < e.size := by
  cases h with
  | plain plain => exact plain.size
  | container size => exact size

theorem Body.Open.sizes {b : Body Entry} (h : b.Open) :
    ∀ e ∈ b.imports ++ b.attributes ++ b.members, 0 < e.size := by
  rw [List.forall_mem_append]
  refine ⟨fun e mem => (h.preamble e mem).size, ?_⟩
  cases h with
  | last _ _ _ members _ => exact fun e mem => (members e mem).size
  | fileScoped _ _ _ closed opens members _ _ =>
    rw [members, List.forall_mem_append, List.forall_mem_singleton]
    exact ⟨fun e mem => (closed e mem).size, opens.size⟩

end Outline

/-- A file that has tokens has a first declaration, which starts with the first of them and from
which the header comes. -/
theorem SourceFile.ofTokens_first {stream : TokenStream} {file : SourceFile}
    (h : ofTokens stream = .ok file) :
    (stream.tokens = [] ∧ file.header = []) ∨ ∃ t own rest d others,
      place stream.tokens = (t :: own) ++ rest ∧ d.leading = t.leading ∧ d.text = join (t :: own) ∧
      (file.header, file.root.decls) = Header.detachFirst (d :: others) := by
  obtain ⟨outline, read, rfl⟩ := ofTokens_outline h
  obtain ⟨unclosed, counted⟩ := ofLexemes_count read
  rw [List.length_map, Body.count_eq, unclosed, Nat.add_zero, Body.inner,
    ← Entry.countAll_append, ← Entry.countAll_append] at counted
  have sizes := (ofLexemes_open read).sizes
  have detached := Header.detach_decls
    { (outline.build [] (place stream.tokens)).block with closeLeading := stream.tail }
  change _ = Header.detachFirst (outline.build [] (place stream.tokens)).block.decls at detached
  rw [outline.build_decls] at detached
  cases entries : outline.imports ++ outline.attributes ++ outline.members with
  | nil =>
    rw [entries] at counted detached
    exact .inl ⟨List.eq_nil_of_length_eq_zero counted.symm, congrArg Prod.fst detached⟩
  | cons e es =>
    rw [entries] at counted detached sizes
    have enough : e.size ≤ (place stream.tokens).length := by
      have := e.size_le_count
      rw [place_length, ← counted, Entry.countAll]
      omega
    obtain ⟨t, own, taken⟩ :=
      List.exists_cons_of_ne_nil (take_ne_nil (sizes e (by simp)) enough)
    have leading := e.build_leading (place stream.tokens)
    have text := e.build_text (place stream.tokens)
    rw [taken] at leading text
    exact .inr ⟨t, own, _, _, _, (taken ▸ List.take_append_drop e.size _).symm, leading, text,
      detached⟩

namespace Header

/-- What holds of a header, of the declaration behind it and of the tokens of that declaration. -/
structure Detached (header : Span) (d : Decl) (own : List PlacedToken) : Prop where
  text : d.text = join own
  whole : ∃ t ∈ own.head?, header ++ d.leading = t.leading
  comment : ∃ t ∈ header, t.isComment
  lines : header.endsLine
  regions : ∀ t ∈ header, ∀ kind, t.kind = .directive kind → kind.isRegionMarker
  live : ∀ t ∈ header, t.kind ≠ .disabled
  blank : d.leading.opensBlank

namespace EndsAt

variable {text : List Char} {symbols : List String} {s : TokenStream} {t : PlacedToken}
  {own rest : List PlacedToken} {n : Nat}

theorem lines {span : Span} (h : EndsAt span n) : endsLine (span.take n) := by
  obtain ⟨c, mem, -⟩ := h.comment
  exact h.clean.lines.resolve_left (List.ne_nil_of_mem mem)

theorem not_disabled (ends : EndsAt t.leading n) (h : tokenize text symbols = .ok s)
    (tokens : place s.tokens = t :: rest) : ∀ x ∈ t.leading.take n, x.kind ≠ .disabled := by
  obtain ⟨ks, c, flow⟩ := TokenStream.leading_flow h
  rw [tokens, front, ← List.take_append_drop n t.leading] at flow
  obtain ⟨c', ks', -, header, -⟩ := flow.split ends.lines
  obtain rfl := header.eq_directives
  exact header.not_disabled (Conditional.isActive_of_closed rfl) ends.clean.free

theorem detached (ends : EndsAt t.leading n) (h : tokenize text symbols = .ok s)
    (tokens : place s.tokens = (t :: own) ++ rest) {d : Decl} (joined : d.text = join (t :: own)) :
    Detached (t.leading.take n) { d with leading := t.leading.drop n } (t :: own) where
  text := joined
  whole := ⟨t, rfl, List.take_append_drop ..⟩
  comment := ends.comment
  lines := ends.lines
  regions := fun x mem kind directive => by
    have plain := List.any_eq_false.mp ends.clean.free x mem
    simpa [Trivia.isGuardMarker, DirectiveKind.isGuardMarker, directive] using plain
  live := ends.not_disabled h tokens
  blank := ends.blank

end EndsAt

end Header

/-- The header of a file goes up to the last blank line behind a comment and in front of any
directive that pins declarations. -/
theorem SourceFile.parse_header :
    (∀ span k, Header.split? span = some k ↔
      Header.EndsAt span k ∧ ∀ n, Header.EndsAt span n → n ≤ k) ∧
    (∀ span, Header.split? span = none ↔ ∀ n, ¬ Header.EndsAt span n) ∧
    ∀ source symbols file, parse source symbols = .ok file → ∃ stream,
      tokenize (if source.head? == some CSharpTidy.byteOrderMark then source.tail else source)
        symbols = .ok stream ∧
      (file.header ≠ [] ↔ ∃ t ∈ stream.tokens.head?, ∃ n, Header.EndsAt t.leading n) ∧
      (file.header ≠ [] → ∃ own rest d others, place stream.tokens = own ++ rest ∧
        file.root.decls = d :: others ∧ Header.Detached file.header d own) := by
  refine ⟨fun _ _ => Header.split_eq_some_iff, fun _ => Header.split_eq_none_iff, ?_⟩
  intro source symbols file parsed
  obtain ⟨stream, inner, tokenized, built, rfl⟩ := parse_stream parsed
  refine ⟨stream, tokenized, ?_⟩
  obtain ⟨empty, none⟩ | ⟨t, own, rest, d, others, whole, leading, text, detached⟩ :=
    ofTokens_first built
  · simp [empty, none]
  · have first : stream.tokens.head? = some t.toToken := by
      rw [← placeFrom_toToken true "" stream.tokens]
      exact congrArg (List.head? ∘ List.map toToken) whole
    rw [Header.detachFirst, leading] at detached
    cases found : Header.split? t.leading with
    | none =>
      obtain ⟨header, -⟩ := Prod.mk.inj (found ▸ detached)
      simp [first, header, Header.split_eq_none_iff.mp found]
    | some k =>
      obtain ⟨header, decls⟩ := Prod.mk.inj (found ▸ detached)
      obtain ⟨ends, -⟩ := Header.split_eq_some_iff.mp found
      obtain ⟨c, mem, -⟩ := ends.comment
      simp only [header]
      refine ⟨iff_of_true (List.ne_nil_of_mem mem) ⟨_, first, k, ends⟩, fun _ => ?_⟩
      exact ⟨t :: own, rest, _, others, whole, decls, ends.detached tokenized whole text⟩

/-- The header ends in front of a line with a tab. There is a dead branch behind it, with a second
comment and a second blank line. -/
theorem SourceFile.parse_header_region :
    let source := "// a\n#region b\n\t\n// c\n#if D\n// e\n\n#endif\nusing F;\n#endregion\n".toList
    ∃ file, parse source [] = .ok file ∧
      file.header = [⟨.lineComment, "// a"⟩, ⟨.endOfLine, "\n"⟩, ⟨.directive .region, "#region b"⟩,
        ⟨.endOfLine, "\n"⟩] ∧
      ∃ own d others, file.root.decls = d :: others ∧ Header.Detached file.header d own := by
  intro source
  have headed : (parse source []).toOption.map SourceFile.header = some [⟨.lineComment, "// a"⟩,
      ⟨.endOfLine, "\n"⟩, ⟨.directive .region, "#region b"⟩, ⟨.endOfLine, "\n"⟩] := by
    decide +kernel
  obtain ⟨file, read, header⟩ := Option.map_eq_some_iff.mp headed
  have parsed := eq_ok_of_toOption read
  obtain ⟨stream, -, -, detached⟩ := parse_header.2.2 source [] file parsed
  obtain ⟨own, rest, d, others, -, decls, known⟩ := detached (by simp [header])
  exact ⟨file, parsed, header, own, d, others, decls, known⟩

end CSharpTidy
