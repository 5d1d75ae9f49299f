import CSharpTidy.Proofs.RegionNesting

/- The result of a run that is read again. Where every member of the source starts as one, wherever
   it is put, the result is parsed and its declarations are found in the order that they were put
   in. -/
namespace CSharpTidy

open CSharpTidy.Span PlacedToken SourceFile Outline

theorem Decl.rank_drop (d : Decl) (n : Nat) (clean : Header.Clean (d.leading.take n)) :
    Decl.rank { d with leading := d.leading.drop n } = d.rank := by
  have whole : d.leading.directives =
      Span.directives (d.leading.take n) ++ Span.directives (d.leading.drop n) := by
    rw [← directives_append, List.take_append_drop]
  have free := clean.free
  rw [hasGuardMarker_iff] at free
  simp [Decl.rank, Decl.hasGuardMarker, hasGuardMarker_iff, whole, free]

namespace TokenStream

def lexemes (s : TokenStream) : List Lexeme :=
  s.tokens.map Token.toLexeme

/-- No token looks like a directive, and every list that is sorted can be sorted. -/
def sortable (roots : List String) (s : TokenStream) : Bool :=
  match Outline.ofLexemes s.lexemes with
  | .error _ => false
  | .ok outline =>
      s.tokens.all (fun t => t.text.toList.head? != some '#') &&
        (s.detached outline).2.settled roots (outline.insides (place s.tokens)) &&
        outline.settledInside roots (place s.tokens)

/-- Every list can be sorted, and what is put in another place there stands alone. -/
def standing (roots : List String) (s : TokenStream) : Bool :=
  match Outline.ofLexemes s.lexemes with
  | .error _ => false
  | .ok outline => s.sortable roots && outline.lone .compilationUnit s.lexemes

end TokenStream

section Arranged

variable {roots : List String} {imports attributes members : List Item} {closed : Bool}
  {a : Block Decl} {ks : List DirectiveKind} {s : TokenStream}

/-- A stream with the signs of a block in order is built into a file in order. -/
theorem ofTokens_arranged (ks : List DirectiveKind)
    (h : Item.Tells roots a imports attributes members)
    (rows : Outline.Rows CSharpTidy.Item.entry CSharpTidy.Item.lexemes .compilationUnit imports
      attributes members closed)
    (undirected : ∀ t ∈ place s.tokens, t.trailing.directives = [])
    (free : ∀ kind ∈ ks, kind.isRegionMarker)
    (headed : imports ++ attributes ++ members = [] → ks = [])
    (signs : Led.signs ((place s.tokens).map led) ++ s.tail.signs =
      ks.map .inl ++ (imports ++ attributes ++ members).flatMap Item.signs ++ a.closeLeading.signs)
    (stripped : a.membersGuarded = false → ∀ kind ∈ ks, kind.isRegionMarker = false) :
    ∃ file, ofTokens s = .ok file ∧ file.Arranged roots := by
  have front : ks.map .inl ++ (imports ++ attributes ++ members).flatMap Item.signs =
      Led.signs (Led.lead ks ((imports ++ attributes ++ members).flatMap Item.leds)) := by
    by_cases none : imports ++ attributes ++ members = []
    · simp [none, headed none, Led.signs]
    · rw [Led.signs_lead (Item.Told.leds_ne_nil h.told none), Item.Told.signs_leds h.told]
  -- The signs say which directives stand in front of which lexeme.
  have decoded := congrArg (Led.ofSigns []) (front ▸ signs)
  rw [Span.signs, Span.signs, Led.ofSigns_signs, Led.ofSigns_signs, Prod.mk.injEq] at decoded
  obtain ⟨leds, tail⟩ := decoded
  have lexemes : s.tokens.map Token.toLexeme =
      (imports ++ attributes ++ members).flatMap Item.lexemes := by
    have found := congrArg (List.map Prod.snd) leds
    simp only [Led.map_snd_lead, List.map_flatMap, List.map_map, Item.leds] at found
    rw [← place_lexemes]
    exact found
  let outline := Item.body false imports attributes members 0
  let root := { (outline.build [] (place s.tokens)).block with closeLeading := s.tail }
  have inner : (place s.tokens).length ≤ outline.inner := by
    have lengths := congrArg List.length leds
    rw [List.length_map, Led.length_lead, Item.Told.length_leds h.told] at lengths
    rw [Item.body_inner, lengths]
  obtain ⟨ranks, ranks', clean, bodies⟩ := h.block undirected free stripped (n := 0) []
    ((congrArg (List.map led) (List.take_of_length_le inner)).trans leds)
  obtain ⟨importRanks, -, memberRanks⟩ := Header.detach_map Decl.rank_drop root
  obtain ⟨opening, -, closing, -⟩ := Header.detach_frame root
  have sameClosing : (Header.detach root).2.closeLeading.hasGuardMarker =
      a.closeLeading.hasGuardMarker := by
    rw [closing, hasGuardMarker_iff, hasGuardMarker_iff]
    exact congrArg (List.any · _) tail
  have unmarked (unguarded : a.membersGuarded = false) : (Header.detach root).1.Unmarked ∧
      ∀ d ∈ (Header.detach root).2.decls, d.Unmarked := by
    exact Header.forall_detach (fun _ own => own.1) (fun d n own =>
      ⟨fun t mem => own.1 t (List.mem_of_mem_drop mem), own.2⟩) (clean unguarded)
  -- Whether a list is in order is a matter of its ranks, and these are the arranged block's.
  have outlined : ofLexemes (s.tokens.map Token.toLexeme) = .ok outline :=
    lexemes ▸ rows.ofLexemes
  refine ⟨_, ofTokens_of_outline outlined, fun unguarded => ?_,
    .intro (h.sorted.of_ranks (importRanks.trans ranks) (memberRanks.trans ranks') sameClosing
      fun unguarded => ⟨?_, (unmarked unguarded).2, ?_⟩)
    (Header.forall_body_detach fun d mem => bodies d (List.mem_append_right _ mem))⟩
  · have guarded := Block.membersGuarded_of_ranks (memberRanks.trans ranks') sameClosing
    exact (unmarked (guarded.symm.trans unguarded)).1
  · rw [TokenStream.detached, opening]
    simp [root, SourceFile.build_openTrailing, Span.Unmarked]
  · rw [TokenStream.detached, closing, unmarked_iff]
    exact tail ▸ (unmarked_iff _).mp (h.sorted.regions unguarded).2.2

end Arranged

variable {symbols : List String} {s : TokenStream} {source text : List Char} {file : SourceFile}

theorem TokenStream.regular (read : tokenize text symbols = .ok s) :
    Outline.Regular (place s.tokens) := by
  have words : ∀ t ∈ s.tokens, t.toLexeme.closes → t.toLexeme.isWord = false :=
    Cursor.tokens_forall read fun _ _ found _ closes => by
      have words := Cursor.lexeme_word found
      grind [Lexeme.closes]
  exact fun t mem => words _ (mem_of_mem_place mem)

theorem TokenStream.signs_eq (undirected : ∀ t ∈ place s.tokens, t.trailing.directives = []) :
    s.shown.filterMap Atom.sign? = Led.signs ((place s.tokens).map led) ++ s.tail.signs := by
  rw [← signs_map_led undirected, ← List.flatMap_map toToken Token.atoms, place_toToken, shown,
    Atom.filterMap_counts, TokenStream.atoms, List.filterMap_append, Atom.filterMap_sign]

/-- The tidied text of a source is read again with these signs, and whatever has them is built into
a file in order. -/
theorem ofTokens_again {roots : List String} (read : tokenize text symbols = .ok s)
    (built : ofTokens s = .ok file) (standing : s.standing roots) {ending : String}
    (terminator : IsTerminator ending) : ∃ σ, Finishes Atom.sign? ⟨.start, .ofSymbols symbols⟩
        (Text.trimEnd ((file.reorganize roots).normalize ending).body.toList ++ ending.toList) σ ∧
      ∀ {text' : List Char} {s' : TokenStream}, tokenize text' symbols = .ok s' →
        s'.shown.filterMap Atom.sign? = σ →
        ∃ again, ofTokens s' = .ok again ∧ again.Arranged roots := by
  unfold TokenStream.standing at standing
  split at standing
  · cases standing
  rename_i outline outlined
  simp only [TokenStream.sortable, outlined, Bool.and_eq_true, List.all_eq_true, bne_iff_ne]
    at standing
  obtain ⟨⟨⟨unhashed, settled⟩, settledInside⟩, lone⟩ := standing
  obtain rfl := Except.ok.inj ((ofTokens_of_outline outlined).symm.trans built)
  obtain ⟨imports, attributes, members, c', g', rooted⟩ :=
    TokenStream.exists_rooted read outlined unhashed settledInside
  obtain ⟨clean, flow, k, m, n, rows, -⟩ := TokenStream.detached_rows rooted.rows
  obtain ⟨-, o, c'', laid⟩ := rows.laid (Conditional.isActive_of_closed rfl) rooted.unopened
    rooted.unbraced rooted.unclosed rooted.ahead settled clean flow false
  refine ⟨_, laid.reads_signs terminator, fun {text' s'} read' signs => ?_⟩
  have respelt := rooted.respelt.detach k m n
  obtain ⟨sorted, sameImports, sameAttributes, sameMembers⟩ := rows.arranged
  have lone' : outline.lone .compilationUnit ((place s.tokens).map (·.toLexeme)) := by
    rwa [place_lexemes]
  have regions := isRegionMarker_of_free clean.free
  refine ofTokens_arranged (Span.stripUnless (s.detached outline).2.membersGuarded
      (s.detached outline).1).directives
    ⟨Item.Told.order respelt.told _ _, sorted, sameImports, sameAttributes, sameMembers⟩
    ((respelt.rows (TokenStream.regular read) lone').sorted roots _ _)
    (TokenStream.undirected read') ?_ (fun none => ?_) ?_ fun unguarded => ?_
  · cases (s.detached outline).2.membersGuarded with
    | true => exact regions
    | false =>
      change ∀ kind ∈ Span.directives (stripRegions _).1, _
      rw [directives_stripRegions]
      exact fun kind mem => regions kind (List.mem_of_mem_filter mem)
  · have lengths := congrArg List.length none
    have imports := congrArg List.length rows.rows.importDecls
    have attributes := congrArg List.length rows.rows.attributeDecls
    have members := congrArg List.length rows.rows.memberDecls
    simp only [List.length_append, (Item.sorted_perm ..).length_eq, List.length_map,
      List.length_nil] at lengths imports attributes members
    have empty : (s.detached outline).2.decls.length = 0 := by
      simp only [Block.decls, List.length_append]
      omega
    have headless : (s.detached outline).1 = [] :=
      Header.detach_nil (List.eq_nil_of_length_eq_zero empty)
    rw [headless]
    cases (s.detached outline).2.membersGuarded <;> rfl
  · rw [← TokenStream.signs_eq (TokenStream.undirected read'), signs, ← List.append_assoc]
    rfl
  · rw [Block.mapBlocks_eq, Block.membersGuarded_arrange, Block.membersGuarded_mapBlocks]
      at unguarded
    rw [unguarded, ← unmarked_iff]
    exact stripRegions_unmarked _

theorem SourceFile.parse_of_tokens (read : tokenize (withoutByteOrderMark source) symbols = .ok s)
    (built : ofTokens s = .ok file) : parse source symbols =
      .ok { file with byteOrderMark := source.head? == some CSharpTidy.byteOrderMark } := by
  simp only [parse, withoutByteOrderMark_eq, read, built]

def Options.standing (options : Options) (source : List Char) : Bool :=
  match tokenize (withoutByteOrderMark source) options.definedSymbols with
  | .error _ => false
  | .ok stream => stream.standing options.standardPrefixes

theorem organize_standing {options : Options} {out : List Char}
    (organized : organize options source = .ok out) (standing : options.standing source) :
    ∃ file, SourceFile.parse out options.definedSymbols = .ok file ∧
      file.Arranged options.standardPrefixes := by
  cases parsed : SourceFile.parse source options.definedSymbols with
  | error e => simp [organize, parsed] at organized
  | ok file =>
    obtain ⟨stream, inner, read, built, -, shown⟩ := organize_finishes parsed organized
    rw [Options.standing, read] at standing
    obtain ⟨σ, finishes, again⟩ := ofTokens_again read built standing
      (options.lineEnding.resolve_isTerminator source)
    -- The second run drops a mark in front of the result, which is nothing but a blank.
    obtain ⟨v, void, whole⟩ := exists_void_withoutByteOrderMark out
    have bare := shown finishes
    rw [whole, Finishes.void_append_iff (Conditional.isActive_of_closed rfl) void] at bare
    obtain ⟨s, readOut, signs⟩ := tokenize_iff_shown.mpr bare
    obtain ⟨file, builtOut, arranged⟩ := again readOut signs
    exact ⟨_, SourceFile.parse_of_tokens readOut builtOut, arranged.header, arranged.root⟩

/-- The result of a run is given back by the next one exactly if its line ending is still the same
and its declarations are in order with blanks as spacing asks, or else trade places unseen. They are
in order whenever each member of the source starts as one, wherever it is put. -/
theorem organize_again_iff {options : Options} {source out : List Char}
    (first : organize options source = .ok out) :
    (organize options out = .ok out ↔
      options.lineEnding.resolve out = options.lineEnding.resolve source ∧
        ∃ file, SourceFile.parse out options.definedSymbols = .ok file ∧
          (file.Arranged options.standardPrefixes ∧
              file.Spaced (options.lineEnding.resolve source) ∨
            file.Trades options.standardPrefixes (options.lineEnding.resolve source))) ∧
      (options.standing source → ∃ file, SourceFile.parse out options.definedSymbols = .ok file ∧
        file.Arranged options.standardPrefixes ∧
        (organize options out = .ok out ↔
          options.lineEnding.resolve out = options.lineEnding.resolve source ∧
            file.Spaced (options.lineEnding.resolve source))) := by
  refine ⟨organize_fixed_iff first, fun standing => ?_⟩
  obtain ⟨file, read, arranged⟩ := organize_standing first standing
  refine ⟨file, read, arranged, (organize_fixed_iff first).trans (and_congr_right fun _ => ?_)⟩
  constructor
  · rintro ⟨other, again, known⟩
    obtain rfl := Except.ok.inj (read.symm.trans again)
    -- Declarations in order have no places to trade.
    exact (known.resolve_right fun trades => trades.moved arranged).2
  · exact fun spaced => ⟨file, read, .inl ⟨arranged, spaced⟩⟩

/-- A class on its own is left alone, and so is one that was put in front of an enum. Behind a
namespace without braces, a comment at the end of the file is moved one line down by each run. -/
theorem organize_again_namespace :
    (organize {} "class C \x7b \x7d\n".toList = .ok "class C \x7b \x7d\n".toList ∧
      ∃ file, SourceFile.parse "class C \x7b \x7d\n".toList [] = .ok file ∧
        (file.Arranged ["System"] ∧ file.Spaced "\n" ∨ file.Trades ["System"] "\n")) ∧
    (organize {} "enum E \x7b \x7d\nclass C \x7b \x7d\n".toList =
        .ok "class C \x7b \x7d\n\nenum E \x7b \x7d\n".toList ∧
      ∃ file, SourceFile.parse "class C \x7b \x7d\n\nenum E \x7b \x7d\n".toList [] = .ok file ∧
        file.Arranged ["System"] ∧ file.Spaced "\n") ∧
    (organize {} "namespace N;\n\nclass C \x7b \x7d\n// end\n".toList =
        .ok "namespace N;\n\nclass C \x7b \x7d\n\n// end\n".toList ∧
      ¬ ∃ file, SourceFile.parse "namespace N;\n\nclass C \x7b \x7d\n\n// end\n".toList [] =
          .ok file ∧
        (file.Arranged ["System"] ∧ file.Spaced "\n" ∨ file.Trades ["System"] "\n")) := by
  have kept : organize {} "class C \x7b \x7d\n".toList = .ok "class C \x7b \x7d\n".toList :=
    eq_ok_of_toOption (by decide +kernel)
  have first : organize {} "namespace N;\n\nclass C \x7b \x7d\n// end\n".toList =
      .ok "namespace N;\n\nclass C \x7b \x7d\n\n// end\n".toList :=
    eq_ok_of_toOption (by decide +kernel)
  have second : organize {} "namespace N;\n\nclass C \x7b \x7d\n\n// end\n".toList =
      .ok "namespace N;\n\nclass C \x7b \x7d\n\n\n// end\n".toList :=
    eq_ok_of_toOption (by decide +kernel)
  have sorted : organize {} "enum E \x7b \x7d\nclass C \x7b \x7d\n".toList =
      .ok "class C \x7b \x7d\n\nenum E \x7b \x7d\n".toList :=
    eq_ok_of_toOption (by decide +kernel)
  have stays : organize {} "class C \x7b \x7d\n\nenum E \x7b \x7d\n".toList =
      .ok "class C \x7b \x7d\n\nenum E \x7b \x7d\n".toList :=
    eq_ok_of_toOption (by decide +kernel)
  obtain ⟨file, read, arranged, spaced⟩ := (organize_again_iff sorted).2 (by decide +kernel)
  refine ⟨⟨kept, ((organize_again_iff kept).1.mp kept).2⟩, ⟨sorted, file, read, arranged,
    (spaced.mp stays).2⟩, first, fun settled => ?_⟩
  have again := (organize_again_iff first).1.mpr ⟨by decide +kernel, settled⟩
  rw [second] at again
  exact absurd (Except.ok.inj again) (by decide)

end CSharpTidy
