import CSharpTidy.Proofs.SecondReading
import CSharpTidy.Proofs.SeenOutline
import CSharpTidy.Proofs.TextPieces

/- An organized text under other symbols than it was organized with. Two readers take the source in
   step: the one that organizes it, and one for which other code is live. What is dead for the first
   goes with the lines around it, so the second finds all its tokens again. -/
namespace CSharpTidy

open CSharpTidy.Span CSharpTidy.Part PlacedToken SourceFile Outline

variable {symbols roots : List String} {R : List Lexeme → List Lexeme → Prop} {c c' : Conditional}
  {f : Block Decl → Block Decl} {as : List Atom} {file : SourceFile} {text source : List Char}
  {s : TokenStream} {ending : String}

theorem Glides.reopen (active : c.isActive) {p q : Place} (hp : p ≠ .inside) (hq : q ≠ .inside)
    {s : List Char} (h : Glides ⟨p, c⟩ s as) : Glides ⟨q, c⟩ s as := by
  induction s generalizing p q as with
  | nil =>
    cases h with
    | done closed => exact .done closed
  | cons a s ih =>
    cases h with
    | cons first even more =>
      obtain same | ⟨passes, passes', hp', hq'⟩ := Reader.step_reopen active hp hq a s
      · exact .cons (same.trans first) even more
      · rw [passes] at first
        cases first
        exact .pass passes' (ih hp' hq' more)

theorem Glides.of_void_append (active : c.isActive) {v s : List Char} (void : ∀ a ∈ v, isVoid a)
    (h : Glides ⟨.start, c⟩ (v ++ s) as) : Glides ⟨.start, c⟩ s as := by
  obtain ⟨rest, whole, more⟩ := h.of_steps (Steps.void active void .start s)
  rw [List.nil_append] at whole
  exact whole ▸ more.reopen active (Place.after_void void (by simp)) (by simp)

namespace TokenStream

theorem lexemes_eq (s : TokenStream) : s.lexemes = s.shown.filterMap Atom.lexeme? := by
  have token : ∀ t : Token, t.atoms.filterMap Atom.lexeme? = [t.toLexeme] := fun t => by
    rw [Token.atoms, List.filterMap_append, List.filterMap_cons, Atom.filterMap_lexeme,
      Atom.filterMap_lexeme]
    rfl
  rw [shown, ← Atom.lexemes_sign, Atom.filterMap_counts, Atom.lexemes_sign, atoms,
    List.filterMap_append, Atom.filterMap_lexeme, List.append_nil, lexemes]
  induction s.tokens with
  | nil => rfl
  | cons t ts ih => rw [List.map_cons, ih, List.flatMap_cons, List.filterMap_append, token]; rfl

/-- No line inside of a token or a comment looks like a conditional directive. -/
def isEven (s : TokenStream) : Bool :=
  s.atoms.all Atom.isEven

/-- Behind the first token no dead code changes a symbol. -/
def isCalm (s : TokenStream) : Bool :=
  s.tokens.tail.all fun t => t.leading.all Trivia.isCalm

end TokenStream

section Source

variable {text : List Char} {symbols : List String} {s : TokenStream}

theorem TokenStream.atoms_place (s : TokenStream) :
    s.atoms = (place s.tokens).flatMap (fun t => t.toToken.atoms) ++ s.tail.map .trivia := by
  rw [atoms, ← List.flatMap_map toToken Token.atoms, place_toToken]

theorem Held.of_tokenize (read : tokenize text symbols = .ok s)
    (unhashed : ∀ t ∈ s.tokens, t.text.toList.head? ≠ some '#') (unmarked : '\ufeff' ∉ text)
    (calm : s.isCalm) : Held (place s.tokens) := by
  obtain ⟨r, traced, -⟩ := tokenize_traced read
  have token : ∀ t ∈ place s.tokens, t.toToken ∈ s.tokens := fun t mem =>
    place_toToken s.tokens ▸ List.mem_map_of_mem mem
  refine ⟨fun own inside => ?_, fun t mem => unhashed t.toToken (token t mem),
    fun t mem => traced.inert_trailing (tokenize_lexed read).tokens t.toToken (token t mem),
    fun t mem marked => unmarked ?_, fun t mem u leading => ?_⟩
  · by_cases nonempty : own = []
    · exact ⟨r, r, [], [], by rw [nonempty]; exact .nil r []⟩
    · obtain ⟨front, back, whole⟩ := inside
      rw [s.atoms_place, ← whole, List.flatMap_append, List.flatMap_append,
        atoms_eq nonempty] at traced
      obtain ⟨_, _, tokens, -⟩ := traced.split
      obtain ⟨_, _, tokens, -⟩ := tokens.split
      obtain ⟨_, _, -, tokens⟩ := tokens.split
      obtain ⟨_, _, tokens, -⟩ := tokens.split
      obtain ⟨_, _, -, stretched⟩ := tokens.split
      exact ⟨_, _, _, _, stretched⟩
  · rw [traced.text_eq, List.append_nil, TokenStream.atoms, List.flatMap_append]
    obtain ⟨a, atom, found⟩ := List.mem_flatMap.mp marked
    refine List.mem_append_left _ (List.mem_flatMap.mpr ⟨a, ?_, found⟩)
    exact List.mem_flatMap.mpr ⟨t.toToken, token t mem, atom⟩
  · simp only [TokenStream.isCalm, List.all_eq_true] at calm
    refine calm t.toToken ?_ u leading
    rw [← place_toToken s.tokens, ← List.map_tail]
    exact List.mem_map_of_mem mem

theorem TokenStream.sees_of_glides (read : tokenize text symbols = .ok s) (even : s.isEven)
    (unmarked : '\ufeff' ∉ text) {d : Conditional} (glides : Glides ⟨.start, d⟩ text as) :
    ∃ d', Sees Atom.lexeme? d s.atoms (as.filterMap Atom.lexeme?) d' ∧ d'.branches = [] := by
  obtain ⟨r, traced, closed⟩ := tokenize_traced read
  have content : '\ufeff' ∉ s.atoms.flatMap Atom.text := by
    have whole := traced.text_eq
    rw [List.append_nil] at whole
    rwa [← whole]
  obtain ⟨ns, more, d', sees, found, ended⟩ :
      ∃ ns more d', Sees Atom.lexeme? d s.atoms ns d' ∧ _ :=
    traced.sees (Conditional.isActive_of_closed closed) (List.all_eq_true.mp even) (by simp) content
      glides
  cases ended with
  | done finished =>
    rw [found, List.filterMap_nil, List.append_nil]
    exact ⟨d', sees, finished⟩

end Source

section Header

variable {f : Block Decl → Block Decl} {d d' : Conditional} {ls : List Lexeme}

theorem Decl.ShownAll.detach {a : Decl} {as : List Decl} {insides : List (List Marker)}
    (h : ShownAll d ((a :: as).map (mapBlocks f)) insides ls d') (n : Nat) :
    ∃ m before ls', ls = before ++ ls' ∧
      Sees Atom.lexeme? d ((a.leading.take n).map .trivia) before m ∧
      ShownAll m (({ a with leading := a.leading.drop n } :: as).map (mapBlocks f)) insides ls'
        d' := by
  cases h with
  | @cons _ _ m d₁ _ before own ls inside _ insides first more =>
    obtain ⟨leading, rest, solid, through, unmarked⟩ := first
    have whole : (a.mapBlocks f).leading = a.leading.take n ++ a.leading.drop n := by
      rw [List.take_append_drop, mapBlocks_eq]
    rw [whole, List.map_append] at leading
    obtain ⟨m', header, behind, rfl, front, back⟩ := leading.split
    rw [mapBlocks_eq] at rest solid unmarked
    have first : ({ a with leading := a.leading.drop n }.mapBlocks f).Shown m' m d₁ behind own
        (inside.map Marker.kind) := by
      rw [mapBlocks_eq]
      exact ⟨back, rest, solid, through, unmarked⟩
    exact ⟨m', header, behind ++ own ++ ls, by simp [List.append_assoc], front, .cons first more⟩

theorem Block.Shown.detach {b : Block Decl} {w : Insides} (h : b.Shown f w d ls d') :
    ∃ m before ls', ls = before ++ ls' ∧
      Sees Atom.lexeme? d ((Header.detach b).1.map .trivia) before m ∧
      (Header.detach b).2.Shown f w m ls' d' := by
  obtain ⟨decls, plain, lengthImports, lengthAttributes⟩ := h
  obtain ⟨imports, attributes, -⟩ := Header.detach_map (f := Decl.block) (fun _ _ _ => rfl) b
  -- Only the declarations are shown differently.
  have rest {m : Conditional} {ls' : List Lexeme} (shown : Decl.ShownAll m
      ((Header.detach b).2.decls.map (Decl.mapBlocks f)) (w.imports ++ w.attributes ++ w.members) ls'
      d') : (Header.detach b).2.Shown f w m ls' d' := by
    refine ⟨shown, ?_, ?_, ?_⟩
    · rw [← List.forall_mem_map (f := Decl.block) (P := (· = none))] at plain ⊢
      rwa [List.map_append, imports, attributes, ← List.map_append]
    · rw [lengthImports, ← List.length_map Decl.block, ← imports, List.length_map]
    · rw [lengthAttributes, ← List.length_map Decl.block, ← attributes, List.length_map]
  have detached := Header.detach_decls b
  cases own : b.decls with
  | nil =>
    rw [own] at decls detached
    obtain ⟨header, none⟩ := Prod.mk.inj detached
    exact ⟨d, [], ls, rfl, by rw [header]; exact .nil d, rest (by rwa [none])⟩
  | cons a as =>
    obtain ⟨n, cut, -⟩ := Header.detachFirst_clean a as
    rw [own] at decls detached
    obtain ⟨header, behind⟩ := Prod.mk.inj (detached.trans cut)
    obtain ⟨m, before, ls', rfl, front, shown⟩ := Decl.ShownAll.detach decls n
    exact ⟨m, before, ls', rfl, by rwa [header], rest (by rwa [behind])⟩

end Header

theorem Span.Flow.calm_of_free {next fresh : Bool} {span : Span}
    (h : Flow next fresh c span span.directives c') (active : c.isActive)
    (free : span.hasGuardMarker = false) : ∀ t ∈ span, t.isCalm :=
  fun t mem => by simp [Trivia.isCalm, h.not_disabled active free t mem]

theorem Block.InRows.calm {b : Block Decl} {w : Insides} {g g' : Gap}
    {imports attributes members : List Item}
    (h : b.InRows roots w c g imports attributes members c' g') : b.Calm := by
  have each : ∀ i ∈ imports ++ attributes ++ members, i.decl.hasGuardMarker = false →
      ∀ t ∈ i.decl.leading, t.isCalm := by
    intro i mem free
    simp only [Decl.hasGuardMarker, Bool.or_eq_false_iff] at free
    exact (h.rows.sound i mem).leading.calm_of_free (h.rows.sound i mem).active free.1
  refine ⟨fun free a mem => ?_, fun free a mem => ?_⟩
  · simp only [importsGuarded, List.any_eq_false, Bool.not_eq_true] at free
    have unmarked := free a mem
    have decls : imports.map Item.decl = b.imports := h.rows.importDecls
    rw [← decls] at mem
    obtain ⟨i, inside, rfl⟩ := List.mem_map.mp mem
    exact each i (by simp [inside]) unmarked
  · simp only [membersGuarded, Bool.or_eq_false_iff, List.any_eq_false, Bool.or_eq_true, not_or,
      Bool.not_eq_true] at free
    have decls : members.map Item.decl = b.members.map (Decl.mapBlocks (Block.arrange roots)) :=
      h.rows.memberDecls
    have moved : a.mapBlocks (Block.arrange roots) ∈ members.map Item.decl :=
      decls ▸ List.mem_map_of_mem mem
    obtain ⟨i, inside, same⟩ := List.mem_map.mp moved
    have unmarked := (free.1 a mem).2
    have calm := each i (by simp [inside])
    rw [same, Decl.mapBlocks_eq] at calm
    exact calm unmarked

theorem piecewise_unmarked : Piecewise fun s => '\ufeff' ∉ s where
  nil := by simp
  append first second := by simp [first, second]
  split _ whole := by simpa using whole

theorem unmarked_tidied (read : tokenize text symbols = .ok s) (built : ofTokens s = .ok file)
    (unmarked : '\ufeff' ∉ text) (roots : List String) (terminator : IsTerminator ending) :
    '\ufeff' ∉ ((file.reorganize roots).normalize ending).body.toList := by
  obtain ⟨tokens, tail⟩ := Cursor.tokens_texts piecewise_unmarked read unmarked
  have pieces := ofTokens_texts piecewise_unmarked.toJoins built tokens tail
  have lineEnd : '\ufeff' ∉ ending.toList := by
    rcases terminator with rfl | rfl | rfl <;> decide
  exact (pieces.tidy roots lineEnd).printed piecewise_unmarked.toJoins

/-- A second reader of a source reads the tidied text, too, and finds the lexemes again. -/
theorem ofTokens_seen (read : tokenize text symbols = .ok s) (built : ofTokens s = .ok file)
    (sortable : s.sortable roots) (calm : s.isCalm) (even : s.isEven) (unmarked : '\ufeff' ∉ text)
    (follows : Follows roots f R) (arranges : file.root.mapBlocks f = file.root.reorganize roots)
    {d : Conditional} (glides : Glides ⟨.start, d⟩ text as) (terminator : IsTerminator ending) :
    ∃ ls, R ls (as.filterMap Atom.lexeme?) ∧
      Finishes Atom.lexeme? ⟨.start, d⟩
        (Text.trimEnd ((file.reorganize roots).normalize ending).body.toList ++ ending.toList)
        ls := by
  have bare := unmarked_tidied read built unmarked roots terminator
  unfold TokenStream.sortable at sortable
  split at sortable
  · cases sortable
  rename_i outline outlined
  simp only [Bool.and_eq_true, List.all_eq_true, bne_iff_ne] at sortable
  obtain ⟨⟨unhashed, settled⟩, settledInside⟩ := sortable
  obtain rfl := Except.ok.inj ((ofTokens_of_outline outlined).symm.trans built)
  obtain ⟨imports, attributes, members, c', g', rooted⟩ :=
    TokenStream.exists_rooted read outlined unhashed settledInside
  obtain ⟨_, _, _, -, o, c'', laid⟩ := rooted.laid (Conditional.isActive_of_closed rfl) settled
  -- The tokens and the tail as the second reader comes by them.
  obtain ⟨d', sees, closed⟩ := TokenStream.sees_of_glides read even unmarked glides
  rw [s.atoms_place] at sees
  obtain ⟨d₁, ls, ls', found, tokens, tail⟩ := sees.split
  have opened := ofLexemes_open outlined
  have ends := ofLexemes_ends outlined
  rw [TokenStream.lexemes, ← place_lexemes] at ends
  obtain ⟨shownLexemes, sameTokens, shown⟩ := Body.watched follows opened.preamble
    (opened.watched follows) (Held.of_tokenize read unhashed unmarked calm)
    (Nat.le_of_eq rooted.counted) ends settledInside []
    (by rw [rooted.counted, List.take_length]; exact tokens)
  -- The header stays in front, and the parts behind it are arranged.
  have whole : Block.Shown f { (outline.build [] (place s.tokens)).block with
      closeLeading := s.tail } (outline.insides (place s.tokens)) d shownLexemes d₁ :=
    ⟨shown.decls, shown.plain, shown.imports, shown.attributes⟩
  obtain ⟨m, before, behind, rfl, header, rest⟩ := whole.detach
  obtain ⟨-, -, _, _, _, rows', -⟩ := TokenStream.detached_rows rooted.rows
  obtain ⟨moved, sameParts, parts⟩ := follows.parts settled rows'.calm rest
  refine ⟨before ++ (moved ++ ls'), ?_, laid.reads (header.stripUnless _) (arranges ▸ parts) ?_
    closed byKind_lexeme terminator (.inr bare)⟩
  · rw [found, ← List.append_assoc]
    exact follows.append (follows.trans (follows.append (follows.refl before) sameParts) sameTokens)
      (follows.refl ls')
  · have closing : (s.detached outline).2.closeLeading = s.tail := (Header.detach_frame _).2.2.1
    have kept := (mapBlocks_arrange_frame roots (s.detached outline).2).2.2.1
    rw [closing] at kept
    exact kept ▸ tail.stripUnless _

theorem tokenize_iff_lexemes {ls : List Lexeme} :
    (∃ s, tokenize text symbols = .ok s ∧ s.lexemes = ls) ↔
      Finishes Atom.lexeme? ⟨.start, .ofSymbols symbols⟩ text ls := by
  simp only [TokenStream.lexemes_eq]
  exact tokenize_iff_shown

theorem SourceFile.parse_iff_ofLexemes (read : tokenize source symbols = .ok s) :
    (∃ file, parse source symbols = .ok file) ↔
      ∃ outline, Outline.ofLexemes s.lexemes = .ok outline := by
  obtain ⟨v, void, whole⟩ := exists_void_withoutByteOrderMark source
  have finishes := tokenize_iff_lexemes.mp ⟨s, read, rfl⟩
  rw [whole, Finishes.void_append_iff (Conditional.isActive_of_closed rfl) void] at finishes
  obtain ⟨bare, readBare, same⟩ := tokenize_iff_lexemes.mpr finishes
  rw [← same]
  constructor
  · rintro ⟨file, parsed⟩
    obtain ⟨stream, inner, again, built, -⟩ := parse_stream parsed
    rw [withoutByteOrderMark_eq, readBare] at again
    cases again
    obtain ⟨outline, outlined, -⟩ := ofTokens_outline built
    exact ⟨outline, outlined⟩
  · rintro ⟨outline, outlined⟩
    exact ⟨_, parse_of_tokens readBare (ofTokens_of_outline outlined)⟩

/-- A source that can be organized without a change to what other symbols make of it: besides being
sortable, it has a byte order mark in front only, no line inside of a token or comment looks like a
conditional directive, and dead code behind the first token changes no symbol. -/
def Options.portable (options : Options) (source : List Char) : Bool :=
  match tokenize (withoutByteOrderMark source) options.definedSymbols with
  | .error _ => false
  | .ok stream =>
      stream.sortable options.standardPrefixes && stream.isCalm && stream.isEven &&
        !(withoutByteOrderMark source).contains byteOrderMark

theorem organize_seen {options : Options} {out : List Char}
    (parsed : SourceFile.parse source options.definedSymbols = .ok file)
    (organized : organize options source = .ok out) (portable : options.portable source)
    {before : TokenStream} (read : tokenize source symbols = .ok before) (even : before.isEven)
    (follows : Follows options.standardPrefixes f R)
    (arranges : file.root.mapBlocks f = file.root.reorganize options.standardPrefixes) :
    ∃ after, tokenize out symbols = .ok after ∧ R after.lexemes before.lexemes := by
  obtain ⟨stream, inner, readBare, built, root, shown⟩ := organize_finishes parsed organized
  rw [Options.portable, readBare] at portable
  simp only [Bool.and_eq_true, Bool.not_eq_true', List.contains_eq_mem, decide_eq_false_iff_not]
    at portable
  obtain ⟨⟨⟨sortable, calm⟩, evenBare⟩, unmarked⟩ := portable
  -- The second reader glides over the source, and so over what stands behind its mark.
  obtain ⟨r, traced, closed⟩ := tokenize_traced read
  have glides := traced.glides (List.all_eq_true.mp even) closed
  obtain ⟨v, void, whole⟩ := exists_void_withoutByteOrderMark source
  rw [whole] at glides
  obtain ⟨ls, same, finishes⟩ := ofTokens_seen readBare built sortable calm evenBare unmarked
    follows (root ▸ arranges) (glides.of_void_append (Conditional.isActive_of_closed rfl) void)
    (options.lineEnding.resolve_isTerminator source)
  obtain ⟨after, readAfter, rfl⟩ := tokenize_iff_lexemes.mpr (shown finishes)
  exact ⟨after, readAfter, before.lexemes_eq ▸ same⟩

/-- Organizing a portable source gives a text with the same lexemes whatever symbols are defined,
if no line inside of a token or comment looks like a conditional directive under those either.
Where no declaration is moved they are in the same order, and the text is parsed exactly if the
source is. Under the symbols of the run it is parsed wherever each member starts as one. -/
theorem organize_other_symbols {options : Options} {source out : List Char}
    (organized : organize options source = .ok out) (portable : options.portable source)
    {symbols : List String} {before : TokenStream} (read : tokenize source symbols = .ok before)
    (even : before.isEven) :
    (∃ after, tokenize out symbols = .ok after ∧ after.lexemes.Perm before.lexemes ∧
      ∀ file, SourceFile.parse source options.definedSymbols = .ok file →
        file.root.mapBlocks Block.dropRegions = file.root.reorganize options.standardPrefixes →
        after.lexemes = before.lexemes ∧
          ((∃ again, SourceFile.parse out symbols = .ok again) ↔
            ∃ other, SourceFile.parse source symbols = .ok other)) ∧
      (options.standing source → ∃ again, SourceFile.parse out options.definedSymbols = .ok again ∧
        again.Arranged options.standardPrefixes) := by
  cases parsed : SourceFile.parse source options.definedSymbols with
  | error e => simp [organize, parsed] at organized
  | ok file =>
    obtain ⟨after, readAfter, permuted⟩ := organize_seen parsed organized portable read even
      (follows_arrange options.standardPrefixes) rfl
    refine ⟨⟨after, readAfter, permuted, fun file' same still => ?_⟩, organize_standing organized⟩
    obtain rfl := Except.ok.inj same
    obtain ⟨again, readAgain, equal⟩ := organize_seen parsed organized portable read even
      (follows_dropRegions options.standardPrefixes) still
    obtain rfl := Except.ok.inj (readAfter.symm.trans readAgain)
    refine ⟨equal, ?_⟩
    rw [parse_iff_ofLexemes readAfter, parse_iff_ofLexemes read, equal]

/-- A class that comes in front of an enum takes its dead code along, which the symbol brings back
to life. -/
theorem organize_other_symbols_class :
    let source := "enum E \x7b \x7d\nclass C\n\x7b\n#if X\nD d;\n#endif\n\x7d\n".toList
    ∃ out before after, organize {} source = .ok out ∧ tokenize source ["X"] = .ok before ∧
      tokenize out ["X"] = .ok after ∧
      before.lexemes.map Lexeme.text =
        ["enum", "E", "\x7b", "\x7d", "class", "C", "\x7b", "D", "d", ";", "\x7d"] ∧
      after.lexemes.Perm before.lexemes ∧
      ∃ again, SourceFile.parse out [] = .ok again ∧ again.Arranged ["System"] := by
  intro source
  have runs : (organize {} source).toOption.isSome := by decide +kernel
  have found : (tokenize source ["X"]).toOption.map
      (fun s => (s.isEven, s.lexemes.map Lexeme.text)) = some (true,
        ["enum", "E", "\x7b", "\x7d", "class", "C", "\x7b", "D", "d", ";", "\x7d"]) := by
    decide +kernel
  obtain ⟨out, organized⟩ := Option.isSome_iff_exists.mp runs
  obtain ⟨before, read, known⟩ := Option.map_eq_some_iff.mp found
  obtain ⟨even, texts⟩ := Prod.mk.inj known
  obtain ⟨⟨after, readAfter, permuted, -⟩, parsed⟩ := organize_other_symbols
    (eq_ok_of_toOption organized) (by decide +kernel) (eq_ok_of_toOption read) even
  exact ⟨out, before, after, eq_ok_of_toOption organized, eq_ok_of_toOption read, readAfter, texts,
    permuted, parsed (by decide +kernel)⟩

end CSharpTidy
