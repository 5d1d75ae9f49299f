import CSharpTidy.Proofs.HeaderCut
import CSharpTidy.Proofs.SecondRun

/- Regions through a run. Where every region is kept or dropped as a whole, and every list that is
   sorted can be sorted, the tidied text is read again and its regions are nested as before. -/
namespace CSharpTidy

open CSharpTidy.Span CSharpTidy.Part PlacedToken SourceFile Outline

variable {symbols roots : List String} {c c' c'' d : Conditional} {text s : List Char}
  {ending : String} {file : SourceFile} {attributes imports members : List Item} {b : Block Decl}
  {out : List Sign} {α : Type} {w : Insides} {r : Reader} {g g' o : Gap}

theorem Trace.inert_trailing {ts : List Token} (lexed : ∀ t ∈ ts, t.Lexed) {r' : Reader}
    {as : List Atom} {s' : List Char} (h : Trace r (ts.flatMap Token.atoms ++ as) s r' s') :
    ∀ t ∈ ts, t.trailing.Inert := by
  induction ts generalizing r s with
  | nil => simp
  | cons t ts ih =>
    rw [List.forall_mem_cons] at lexed ⊢
    have atoms : t.atoms =
        (t.leading.map .trivia ++ [.token t.toLexeme]) ++ t.trailing.map .trivia := by
      simp [Token.atoms]
    rw [List.flatMap_cons, atoms, List.append_assoc, List.append_assoc] at h
    obtain ⟨r₁, s₁, front, behind⟩ := h.split
    obtain ⟨r₂, s₂, trailing, rest⟩ := behind.split
    obtain ⟨placed, active⟩ := front.back_token
    obtain ⟨place, c⟩ := r₁
    cases placed
    obtain ⟨same, undirected, -⟩ := trailing.trailing active lexed.1.trailing.inline
    have flow : Flow true false c t.trailing _ _ :=
      (flow_of_trace trailing (by rw [same]; exact active) fun _ => rfl).1 rfl
    exact ⟨(undirected ▸ flow).inert_of_nil active, ih lexed.2 rest⟩

theorem TokenStream.undirected {s : TokenStream} (read : tokenize text symbols = .ok s) :
    ∀ t ∈ place s.tokens, t.trailing.directives = [] := by
  intro t mem
  obtain ⟨r, traced, -⟩ := tokenize_traced read
  exact (traced.inert_trailing (tokenize_lexed read).tokens _ (mem_of_mem_place mem)).undirected

namespace TokenStream

def directives (s : TokenStream) : List DirectiveKind :=
  s.tokens.flatMap (fun t => t.leading.directives ++ t.trailing.directives) ++ s.tail.directives

theorem directives_eq (s : TokenStream) : s.directives = s.atoms.filterMap Atom.directive? := by
  have token : ∀ t : Token, t.atoms.filterMap Atom.directive? =
      t.leading.directives ++ t.trailing.directives := fun t => by
    rw [Token.atoms, List.filterMap_append, List.filterMap_cons_none rfl, Atom.filterMap_trivia,
      Atom.filterMap_trivia]
  have tokens : ∀ ts : List Token, (ts.flatMap Token.atoms).filterMap Atom.directive? =
      ts.flatMap fun t => t.leading.directives ++ t.trailing.directives := by
    intro ts
    induction ts with
    | nil => rfl
    | cons t ts ih => rw [List.flatMap_cons, List.filterMap_append, token, ih, List.flatMap_cons]
  rw [directives, atoms, List.filterMap_append, tokens, Atom.filterMap_trivia]

def detached (s : TokenStream) (outline : Body Entry) : Span × Block Decl :=
  Header.detach { (outline.build [] (place s.tokens)).block with closeLeading := s.tail }

def markers (s : TokenStream) (outline : Body Entry) : List Marker :=
  (s.detached outline).1.markers (s.detached outline).2.membersGuarded ++
    (s.detached outline).2.markers (outline.insides (place s.tokens))

/-- No token looks like a directive, both markers of a region are kept or dropped, and every list
that is sorted can be sorted. -/
def steady (roots : List String) (s : TokenStream) : Bool :=
  match Outline.ofLexemes (s.tokens.map Token.toLexeme) with
  | .error _ => false
  | .ok outline =>
      s.tokens.all (fun t => t.text.toList.head? != some '#') &&
        Marker.paired [] (s.markers outline) &&
        (s.detached outline).2.settled roots (outline.insides (place s.tokens)) &&
        outline.settledInside roots (place s.tokens)

end TokenStream

theorem Ahead.of_tokenize {s : TokenStream} (h : tokenize text symbols = .ok s)
    (unhashed : ∀ t ∈ s.tokens, t.text.toList.head? ≠ some '#') :
    Ahead s.tail (.ofSymbols symbols) .fresh (place s.tokens) := by
  obtain ⟨r, traced, closed⟩ := tokenize_traced h
  have lexed := tokenize_lexed h
  refine ⟨Conditional.isActive_of_closed rfl, ⟨.start, text, r, ?_, closed, fun _ => rfl⟩,
    .inl rfl, place_lexed lexed.tokens, fun t mem => unhashed _ (mem_of_mem_place mem),
    chained_placeFrom lexed.chained ..,
    fun t head indented => absurd (place_head_indent _ t head) indented⟩
  rw [← List.flatMap_map toToken Token.atoms, place_toToken]
  exact traced

theorem Finishes.header {note : Atom → Option α} {d' : Conditional} {header : Span}
    {ns ns' : List α} (terminator : IsTerminator ending) (active : c.isActive)
    (flow : Flow false true c header header.directives c)
    (sees : Sees note d (header.map .trivia) ns d') (byKind : ByKind note)
    (legible : Legible c d (Span.text header).toList) (lines : header = [] ∨ header.endsLine)
    (h : Finishes note ⟨.start, d'⟩ (Text.trimEnd s ++ ending.toList) ns') :
    Finishes note ⟨.start, d⟩ (Text.trimEnd ((Span.text header).toList ++ s) ++ ending.toList)
      (ns ++ ns') := by
  -- Trimming reaches the header if nothing but blanks stands behind it.
  by_cases blank : ∀ a ∈ s, Text.isBlank a
  · rw [Text.trimEnd_of_blank blank, List.nil_append] at h
    obtain ⟨rfl, closed⟩ := h.of_lineEnd terminator
    rw [Text.trimEnd_append_of_blank _ blank, List.append_nil]
    exact (flow.atEnd true).finishes sees byKind legible terminator active closed fun _ => rfl
  · rw [Text.trimEnd_append_of_solid _ (by simpa using blank), List.append_assoc]
    obtain ⟨p, reach, stays, starts⟩ := flow.reach sees legible (fun _ => rfl)
      (y := Text.trimEnd s ++ ending.toList) (by simp)
    have placed : p = .start := lines.elim stays starts
    subst placed
    exact reach.finishes h

theorem body_normalize (header : Span) {tail : Span} {root : Block Decl}
    (unopened : root.openTrailing = []) (unbraced : root.braced = false)
    (unclosed : root.close = "") (closing : root.closeLeading = tail) (ending : String)
    (mark : Bool) :
    (SourceFile.normalize ending ⟨mark, header, root⟩).body.toList =
      (Span.text header).toList ++ Chain.spacedText ending tail root.parts := by
  have shut : root.opensLine = false := by simp [Block.opensLine, unopened, unbraced]
  have free : root.closingSpacing = .free := by simp [Block.closingSpacing, unbraced]
  rw [SourceFile.body, SourceFile.normalize, Block.print_normalize, shut, free, unopened, closing,
    unclosed]
  simp [Chain.spacedText, Span.endWhen]

theorem Ahead.closing (h : Ahead b.closeLeading c g []) : b.Closing c g := by
  obtain ⟨c', flow, -, fits⟩ := h.finish
  refine ⟨h.active, ⟨true, c', flow⟩, ?_⟩
  obtain fits | empty := fits
  · exact .inr fits
  · cases g with
    | fresh => exact .inr (.inl rfl)
    | tight => exact .inr (.inr ⟨rfl, by simp [empty, Inert]⟩)
    | loose => exact .inl rfl

/-- A file that is laid out: its header in lines of its own, its parts behind each other, each
where it can be read, and its tail. -/
structure SourceFile.Laid (file : SourceFile) (c : Conditional) (out : List Sign) (o : Gap)
    (c' c'' : Conditional) : Prop where
  active : c.isActive
  header : Flow false true c file.header file.header.directives c
  lines : file.header = [] ∨ file.header.endsLine
  parts : Chain .fresh c file.root.parts out o c'
  tail : Flow true true c' file.root.closeLeading file.root.closeLeading.directives c''
  fits : o.Fits file.root.closeLeading ∨ file.root.closeLeading = []
  closed : c''.branches = []
  unopened : file.root.openTrailing = []
  unbraced : file.root.braced = false
  unclosed : file.root.close = ""

theorem SourceFile.Laid.reads (h : file.Laid c out o c' c'') {note : Atom → Option α}
    {d₁ d₂ d₃ : Conditional} {ns₁ ns₂ ns₃ : List α}
    (header : Sees note d (file.header.map .trivia) ns₁ d₁)
    (parts : ShowsAll note d₁ file.root.parts ns₂ d₂)
    (tail : Sees note d₂ (file.root.closeLeading.map .trivia) ns₃ d₃) (closed : d₃.branches = [])
    (byKind : ByKind note) (terminator : IsTerminator ending)
    (legible : (d = c ∧ d₁ = c) ∨ '\ufeff' ∉ (file.normalize ending).body.toList) :
    Finishes note ⟨.start, d⟩ (Text.trimEnd (file.normalize ending).body.toList ++ ending.toList)
      (ns₁ ++ (ns₂ ++ ns₃)) := by
  obtain ⟨mark, front, root⟩ := file
  rw [body_normalize front h.unopened h.unbraced h.unclosed rfl ending mark, List.mem_append,
    not_or] at legible
  rw [body_normalize front h.unopened h.unbraced h.unclosed rfl ending mark]
  have behind := h.parts.reads parts byKind (legible.imp And.right And.right) terminator h.tail tail
    h.fits (Conditional.isActive_of_closed h.closed) closed (q := .start) fun _ => rfl
  exact behind.header terminator h.active h.header header byKind
    (legible.imp And.left And.left) h.lines

theorem Finishes.directives {σ : List Sign} (h : Finishes Atom.sign? r s σ) :
    Finishes Atom.directive? r s (Sign.directives σ) := by
  obtain ⟨as, reads, rfl⟩ := h
  exact ⟨as, reads, (Atom.directives_sign as).symm⟩

theorem SourceFile.Laid.reads_signs (h : file.Laid c out o c' c'')
    (terminator : IsTerminator ending) : Finishes Atom.sign? ⟨.start, c⟩
      (Text.trimEnd (file.normalize ending).body.toList ++ ending.toList)
      (file.header.signs ++ (out ++ file.root.closeLeading.signs)) :=
  h.reads h.header.sees h.parts.shows h.tail.sees h.closed byKind_sign terminator
    (.inl ⟨rfl, rfl⟩)

theorem Block.InRows.laid {header : Span} (active : c.isActive)
    (h : b.InRows roots w c .fresh imports attributes members c' g')
    (unopened : b.openTrailing = []) (unbraced : b.braced = false) (unclosed : b.close = "")
    (ahead : Ahead b.closeLeading c' g' []) (settled : b.settled roots w)
    (clean : Header.Clean header) (flow : Flow false true c header header.directives c)
    (mark : Bool) :
    let order := Block.Rows.order roots b.membersGuarded b.importsGuarded imports attributes members
    Replaces (Marker.left (b.declMarkers w)) (order.flatMap Item.kinds) ∧
      ∃ o c'', ((SourceFile.mk mark header b).reorganize roots).Laid c (order.flatMap Item.signs) o
        c' c'' := by
  obtain ⟨c'', tail, closed, fits⟩ := ahead.finish
  obtain ⟨o, chain, last, meets, replaces⟩ :=
    h.arrange ahead.closing settled (o := .fresh) (.inl rfl)
  obtain ⟨sameBraced, sameOpening, sameClosing, sameClose⟩ := mapBlocks_arrange_frame roots b
  let file := (SourceFile.mk mark header b).reorganize roots
  have front : file.header = Span.stripUnless b.membersGuarded header := rfl
  have closing : file.root.closeLeading = Span.stripUnless b.membersGuarded b.closeLeading :=
    sameClosing
  have opening : file.root.openTrailing = Span.stripUnless b.membersGuarded b.openTrailing :=
    sameOpening
  have lines : file.header = [] ∨ file.header.endsLine := by
    rw [front]
    cases b.membersGuarded with
    | true => exact clean.lines
    | false => exact flow.stripRegions.2 clean.lines
  have shut : o.Fits file.root.closeLeading ∨ file.root.closeLeading = [] := by
    obtain loose | fitting := meets
    · have none := fits.resolve_left (last loose ▸ Gap.not_fits_loose _)
      exact .inr (by rw [closing, none, stripUnless_of_unmarked (by simp [Span.Unmarked])])
    · exact .inl fitting
  refine ⟨replaces, o, c'', active, flow_stripUnless flow b.membersGuarded, lines, chain,
    closing ▸ flow_stripUnless tail b.membersGuarded, shut, closed, ?_, sameBraced.trans unbraced,
    sameClose.trans unclosed⟩
  rw [opening, unopened, stripUnless_of_unmarked (by simp [Span.Unmarked])]

theorem Item.flatMap_word_kinds (items : List Item) (pinned pinned' : Bool) :
    (items.flatMap (word pinned)).map Marker.kind =
      (items.flatMap (word pinned')).map Marker.kind := by
  simp only [List.map_flatMap, word, List.map_append, map_kind_markers]

theorem Block.InRows.withClosing (h : b.InRows roots w c g imports attributes members c' g')
    (tail : Span) :
    { b with closeLeading := tail }.InRows roots w c g imports attributes members c' g' :=
  ⟨⟨h.rows.importDecls, h.rows.attributeDecls, h.rows.memberDecls, h.rows.row, h.rows.sound,
    h.rows.plain, h.rows.moves⟩, h.imports, h.attributes, h.members⟩

section Detached

variable {s : TokenStream} {outline : Body Entry} {roots : List String} {c c' : Conditional}
  {g' : Gap} {imports attributes members : List Item}

theorem TokenStream.detached_rows
    (rows : (outline.build [] (place s.tokens)).block.InRows roots
      (outline.insides (place s.tokens)) c .fresh imports attributes members c' g') :
    Header.Clean (s.detached outline).1 ∧
    Flow false true c (s.detached outline).1 (s.detached outline).1.directives c ∧
    ∃ k m n, (s.detached outline).2.InRows roots (outline.insides (place s.tokens)) c .fresh
        (Item.detachFirst k imports) (Item.detachFirst m attributes) (Item.detachFirst n members)
        c' g' ∧
      ∀ pinned, (s.detached outline).1.directives ++ ((Item.detachFirst k imports ++
          Item.detachFirst m attributes ++ Item.detachFirst n members).flatMap
            (Item.word pinned)).map Marker.kind =
          ((imports ++ attributes ++ members).flatMap (Item.word pinned)).map Marker.kind :=
  (rows.withClosing s.tail).detach

theorem TokenStream.markers_kinds (counted : outline.inner = (place s.tokens).length)
    (undirected : ∀ t ∈ place s.tokens, t.trailing.directives = [])
    (empty : (outline.insides (place s.tokens)).close = [])
    (rows : (outline.build [] (place s.tokens)).block.InRows roots
      (outline.insides (place s.tokens)) c .fresh imports attributes members c' g') :
    (s.markers outline).map Marker.kind = s.directives := by
  obtain ⟨-, -, k, m, n, rows', kinds⟩ := detached_rows rows
  have closing : (s.detached outline).2.closeLeading = s.tail := (Header.detach_frame _).2.2.1
  have decls := outline.declMarkers_kinds [] (place s.tokens) undirected
  rw [counted, List.take_length, ← rows.declMarkers,
    Item.flatMap_word_kinds _ _ (s.detached outline).2.membersGuarded, ← kinds,
    rows'.declMarkers] at decls
  have tokens : (place s.tokens).flatMap (fun t => t.toToken.atoms) =
      s.tokens.flatMap Token.atoms := by
    rw [← List.flatMap_map toToken Token.atoms, place_toToken]
  rw [markers, Block.markers, empty, List.append_nil, List.map_append, List.map_append,
    map_kind_markers, map_kind_markers, closing, ← List.append_assoc, decls, directivesOf, tokens,
    s.directives_eq, TokenStream.atoms, List.filterMap_append, Atom.filterMap_trivia]

end Detached

/-- The root block of a source as a reader meets it: the declarations of all tokens in a row, each
read from the state that the one before it leaves, and the tail of the source behind them. -/
structure TokenStream.Rooted (s : TokenStream) (outline : Body Entry) (roots : List String)
    (c : Conditional) (imports attributes members : List Item) (c' : Conditional) (g' : Gap) :
    Prop where
  counted : outline.inner = (place s.tokens).length
  unnested : (outline.insides (place s.tokens)).close = []
  unopened : (s.detached outline).2.openTrailing = []
  unbraced : (s.detached outline).2.braced = false
  unclosed : (s.detached outline).2.close = ""
  rows : (outline.build [] (place s.tokens)).block.InRows roots
    (outline.insides (place s.tokens)) c .fresh imports attributes members c' g'
  respelt : outline.Respelt roots .compilationUnit (place s.tokens) imports attributes members
  ahead : Ahead (s.detached outline).2.closeLeading c' g' []

section Rooted

variable {text : List Char} {symbols roots : List String} {s : TokenStream} {outline : Body Entry}
  {c c' : Conditional} {g' : Gap} {imports attributes members : List Item}

theorem ofTokens_of_outline (outlined : ofLexemes (s.tokens.map Token.toLexeme) = .ok outline) :
    ofTokens s = .ok ⟨false, (s.detached outline).1, (s.detached outline).2⟩ := by
  rw [ofTokens, outlined]
  rfl

theorem TokenStream.exists_rooted (read : tokenize text symbols = .ok s)
    (outlined : ofLexemes (s.tokens.map Token.toLexeme) = .ok outline)
    (unhashed : ∀ t ∈ s.tokens, t.text.toList.head? ≠ some '#')
    (settledInside : outline.settledInside roots (place s.tokens)) :
    ∃ imports attributes members c' g',
      s.Rooted outline roots (.ofSymbols symbols) imports attributes members c' g' := by
  obtain ⟨_, _, known⟩ := ofTokens_read (tokenize_lexed read) (ofTokens_of_outline outlined)
  obtain ⟨unclosed, counted⟩ := ofLexemes_count outlined
  have opened := ofLexemes_open outlined
  have ends := ofLexemes_ends outlined
  rw [← place_lexemes] at ends
  rw [List.length_map, ← place_length, Body.count_eq, unclosed, Nat.add_zero] at counted
  obtain ⟨imports, attributes, members, c', g', rows, ahead, respelt⟩ := Body.met opened.preamble
    opened.met (Ahead.of_tokenize read unhashed) (Nat.le_of_eq counted) ends settledInside []
  rw [counted, List.drop_length] at ahead
  have closing : (s.detached outline).2.closeLeading = s.tail := (Header.detach_frame _).2.2.1
  refine ⟨imports, attributes, members, c', g', counted, ?_, known.openTrailing, known.braced,
    known.close, rows, respelt, closing ▸ ahead⟩
  rw [Body.insides_close, unclosed]
  rfl

theorem TokenStream.Rooted.laid
    (h : s.Rooted outline roots c imports attributes members c' g') (active : c.isActive)
    (settled : (s.detached outline).2.settled roots (outline.insides (place s.tokens))) :
    ∃ imports' attributes' members',
      let order := Block.Rows.order roots (s.detached outline).2.membersGuarded
        (s.detached outline).2.importsGuarded imports' attributes' members'
      Replaces (Marker.left
        ((s.detached outline).2.declMarkers (outline.insides (place s.tokens))))
        (order.flatMap Item.kinds) ∧
      ∃ o c'', ((SourceFile.mk false (s.detached outline).1 (s.detached outline).2).reorganize
        roots).Laid c (order.flatMap Item.signs) o c' c'' := by
  obtain ⟨clean, flow, k, m, n, rows, -⟩ := TokenStream.detached_rows h.rows
  exact ⟨_, _, _, rows.laid active h.unopened h.unbraced h.unclosed h.ahead settled clean flow false⟩

end Rooted

/-- A tree that is steady is read again once it is tidied, and its regions are nested. -/
theorem ofTokens_finishes {s : TokenStream} (read : tokenize text symbols = .ok s)
    (built : ofTokens s = .ok file) (steady : s.steady roots) (terminator : IsTerminator ending) :
    ∃ ks, (RegionsNested s.directives → RegionsNested ks) ∧
      Finishes Atom.directive? ⟨.start, .ofSymbols symbols⟩
        (Text.trimEnd ((file.reorganize roots).normalize ending).body.toList ++ ending.toList)
        ks := by
  unfold TokenStream.steady at steady
  split at steady
  · cases steady
  rename_i outline outlined
  simp only [Bool.and_eq_true, List.all_eq_true, bne_iff_ne] at steady
  obtain ⟨⟨⟨unhashed, paired⟩, settled⟩, settledInside⟩ := steady
  obtain rfl := Except.ok.inj ((ofTokens_of_outline outlined).symm.trans built)
  obtain ⟨imports, attributes, members, c', g', rooted⟩ :=
    TokenStream.exists_rooted read outlined unhashed settledInside
  obtain ⟨_, _, _, replaces, o, c'', laid⟩ :=
    rooted.laid (Conditional.isActive_of_closed rfl) settled
  -- What is left of nested regions is nested, since the markers that go make whole regions.
  refine ⟨_, fun nested => ?_, (laid.reads_signs terminator).directives⟩
  have kinds := TokenStream.markers_kinds rooted.counted (TokenStream.undirected read)
    rooted.unnested rooted.rows
  have left := Marker.left_nested_of_paired paired (kinds.symm ▸ nested)
  rw [TokenStream.markers, Block.markers, rooted.unnested, List.append_nil, Marker.left_append,
    Marker.left_append, left_markers, left_markers] at left
  rw [← (mapBlocks_arrange_frame roots (s.detached outline).2).2.2.1] at left
  rw [Sign.directives_append, Sign.directives_append, directives_signs, directives_signs,
    Item.directives_flatMap]
  exact ((Replaces.refl _).append (replaces.append (Replaces.refl _))) _ _ left

theorem tokenize_iff_shown {note : Atom → Option α} {ns : List α} :
    (∃ s, tokenize text symbols = .ok s ∧ s.shown.filterMap note = ns) ↔
      Finishes note ⟨.start, .ofSymbols symbols⟩ text ns := by
  constructor
  · rintro ⟨s, read, rfl⟩
    exact ⟨s.shown, .of_tokenize read, rfl⟩
  · rintro ⟨as, reads, rfl⟩
    obtain ⟨s, read, rfl⟩ := tokenize_iff_reads.mpr reads
    exact ⟨s, read, rfl⟩

theorem tokenize_iff_finishes {ks : List DirectiveKind} :
    (∃ s, tokenize text symbols = .ok s ∧ s.directives = ks) ↔
      Finishes Atom.directive? ⟨.start, .ofSymbols symbols⟩ text ks := by
  have shown : ∀ s : TokenStream, s.shown.filterMap Atom.directive? = s.directives := fun s => by
    rw [s.directives_eq, TokenStream.shown, ← Atom.directives_sign, Atom.filterMap_counts,
      Atom.directives_sign]
  simp only [← shown]
  exact tokenize_iff_shown

theorem exists_void_withoutByteOrderMark (s : List Char) :
    ∃ v, (∀ a ∈ v, isVoid a) ∧ s = v ++ withoutByteOrderMark s := by
  cases s with
  | nil => exact ⟨[], by simp, rfl⟩
  | cons a s =>
    rw [withoutByteOrderMark]
    split
    · rename_i marked
      exact ⟨[a], by simp [isVoid, isSpace, eq_of_beq marked, byteOrderMark], rfl⟩
    · exact ⟨[], by simp, rfl⟩

theorem Text.trimEnd_void_append {v : List Char} (void : ∀ a ∈ v, isVoid a) (s : List Char) :
    ∃ w, (∀ a ∈ w, isVoid a) ∧ trimEnd (v ++ s) = w ++ trim s := by
  have front : v ++ s = (v ++ s.takeWhile isBlank) ++ trimStart s := by
    rw [List.append_assoc, trimStart, List.takeWhile_append_dropWhile]
  have voids : ∀ a ∈ v ++ s.takeWhile isBlank, isVoid a := by
    rw [List.forall_mem_append]
    refine ⟨void, fun a mem => ?_⟩
    have blank := List.mem_takeWhile_imp mem
    cases breaks : isLineBreak a <;> simp [isVoid, isSpace, blank, breaks]
  by_cases blank : ∀ a ∈ trimStart s, isBlank a
  · refine ⟨trimEnd (v ++ s.takeWhile isBlank), fun a mem => voids a (mem_of_mem_trimEnd mem), ?_⟩
    rw [trim, trimEnd_of_blank blank, front, trimEnd_append_of_blank _ blank, List.append_nil]
  · refine ⟨v ++ s.takeWhile isBlank, voids, ?_⟩
    rw [front, trimEnd_append_of_solid _ (by simpa using blank), trim]

theorem Finishes.trim {note : Atom → Option α} {ns : List α} (active : c.isActive)
    (h : Finishes note ⟨.start, c⟩ (Text.trimEnd s ++ ending.toList) ns) (marked : Bool) :
    Finishes note ⟨.start, c⟩ (Text.trim (unmark marked s) ++ ending.toList) ns := by
  obtain ⟨v, void, cut⟩ : ∃ v, (∀ a ∈ v, isVoid a) ∧ s = v ++ unmark marked s := by
    cases marked with
    | false => exact exists_void_withoutByteOrderMark s
    | true => exact ⟨[], by simp, rfl⟩
  obtain ⟨w, voids, trimmed⟩ := Text.trimEnd_void_append void (unmark marked s)
  rw [cut, trimmed, List.append_assoc, void_append_iff active voids] at h
  exact h

theorem SourceFile.mark_void (file : SourceFile) : ∀ a ∈ file.mark, isVoid a := by
  rw [mark]
  cases file.byteOrderMark <;> simp [isVoid, isSpace, CSharpTidy.byteOrderMark]

theorem withoutByteOrderMark_eq (source : List Char) :
    (if source.head? == some byteOrderMark then source.tail else source) =
      withoutByteOrderMark source := by
  cases source <;> simp [withoutByteOrderMark]

/-- What a reader finds in the tidied body of a source is what it finds in the result. -/
theorem organize_finishes {options : Options} {source out : List Char}
    (parsed : SourceFile.parse source options.definedSymbols = .ok file)
    (organized : organize options source = .ok out) : ∃ stream inner,
      tokenize (withoutByteOrderMark source) options.definedSymbols = .ok stream ∧
      ofTokens stream = .ok inner ∧ inner.root = file.root ∧
      ∀ {α : Type} {note : Atom → Option α} {symbols : List String} {ns : List α},
        Finishes note ⟨.start, .ofSymbols symbols⟩ (Text.trimEnd
          ((inner.reorganize options.standardPrefixes).normalize
            (options.lineEnding.resolve source)).body.toList ++
          (options.lineEnding.resolve source).toList) ns →
        Finishes note ⟨.start, .ofSymbols symbols⟩ out ns := by
  rw [organize_of_parse parsed] at organized
  cases organized
  obtain ⟨stream, inner, read, built, rfl⟩ := parse_stream parsed
  rw [withoutByteOrderMark_eq] at read
  refine ⟨stream, inner, read, built, rfl, fun {_ _ symbols _} finishes => ?_⟩
  have active : (Conditional.ofSymbols symbols).isActive := Conditional.isActive_of_closed rfl
  have trimmed := finishes.trim active (source.head? == some byteOrderMark)
  rwa [← Finishes.void_append_iff active (mark_void _), ← List.append_assoc] at trimmed

def Options.steady (options : Options) (source : List Char) : Bool :=
  match tokenize (withoutByteOrderMark source) options.definedSymbols with
  | .error _ => false
  | .ok stream => stream.steady options.standardPrefixes

/-- Organizing a steady source gives a text that is read again, and its regions are nested if those
of the source are. -/
theorem organize_regions {options : Options} {source out : List Char}
    (organized : organize options source = .ok out) (steady : options.steady source) :
    ∃ before after, tokenize source options.definedSymbols = .ok before ∧
      tokenize out options.definedSymbols = .ok after ∧
      (RegionsNested before.directives → RegionsNested after.directives) := by
  cases parsed : SourceFile.parse source options.definedSymbols with
  | error e => simp [organize, parsed] at organized
  | ok file =>
    obtain ⟨stream, inner, read, built, -, shown⟩ := organize_finishes parsed organized
    rw [Options.steady, read] at steady
    obtain ⟨ks, nested, finishes⟩ := ofTokens_finishes read built steady
      (options.lineEnding.resolve_isTerminator source)
    obtain ⟨v, void, whole⟩ := exists_void_withoutByteOrderMark source
    have marked := (Finishes.void_append_iff (Conditional.isActive_of_closed rfl) void).mpr
      (tokenize_iff_finishes.mp ⟨stream, read, rfl⟩)
    rw [← whole] at marked
    obtain ⟨before, readBefore, same⟩ := tokenize_iff_finishes.mpr marked
    obtain ⟨after, readAfter, rfl⟩ := tokenize_iff_finishes.mpr (shown finishes)
    exact ⟨before, after, readBefore, readAfter, same ▸ nested⟩

/-- Imports change places across a marker that stays in front of one of them. -/
theorem organize_regions_sorted : ∃ before out after,
    organize {} "using B;\n#region\nusing A;\n#endregion\n#pragma x".toList = .ok out ∧
    tokenize "using B;\n#region\nusing A;\n#endregion\n#pragma x".toList [] = .ok before ∧
    RegionsNested before.directives ∧
    tokenize out [] = .ok after ∧ RegionsNested after.directives := by
  have runs : (organize {}
      "using B;\n#region\nusing A;\n#endregion\n#pragma x".toList).toOption.isSome := by
    decide +kernel
  have kinds : (tokenize
      "using B;\n#region\nusing A;\n#endregion\n#pragma x".toList []).toOption.map
        TokenStream.directives = some [.region, .endRegion, .pragma] := by decide +kernel
  obtain ⟨out, organized⟩ := Option.isSome_iff_exists.mp runs
  obtain ⟨stream, read, directives⟩ := Option.map_eq_some_iff.mp kinds
  obtain ⟨before, after, readBefore, readAfter, nested⟩ :=
    organize_regions (eq_ok_of_toOption organized) (by decide +kernel)
  obtain rfl : stream = before :=
    Except.ok.inj ((eq_ok_of_toOption read).symm.trans readBefore)
  have inside : RegionsNested stream.directives := by
    rw [directives]
    decide
  exact ⟨stream, out, after, eq_ok_of_toOption organized, readBefore, inside, readAfter,
    nested inside⟩

/-- A region that opens in front of a declaration and ends inside of it loses its opening marker. -/
theorem organize_tears_region : ∃ before after,
    organize {} "#region\nenum E \x7b\n#endregion\n\x7d\n".toList =
      .ok "enum E \x7b\n#endregion\n\x7d\n".toList ∧
    tokenize "#region\nenum E \x7b\n#endregion\n\x7d\n".toList [] = .ok before ∧
    tokenize "enum E \x7b\n#endregion\n\x7d\n".toList [] = .ok after ∧
    RegionsNested before.directives ∧ ¬ RegionsNested after.directives := by
  have organized : organize {} "#region\nenum E \x7b\n#endregion\n\x7d\n".toList =
      .ok "enum E \x7b\n#endregion\n\x7d\n".toList := eq_ok_of_toOption (by decide +kernel)
  have first : (tokenize "#region\nenum E \x7b\n#endregion\n\x7d\n".toList []).toOption.map
      TokenStream.directives = some [.region, .endRegion] := by decide +kernel
  have second : (tokenize "enum E \x7b\n#endregion\n\x7d\n".toList []).toOption.map
      TokenStream.directives = some [.endRegion] := by decide +kernel
  obtain ⟨before, found, kinds⟩ := Option.map_eq_some_iff.mp first
  obtain ⟨after, foundAfter, kindsAfter⟩ := Option.map_eq_some_iff.mp second
  refine ⟨before, after, organized, eq_ok_of_toOption found, eq_ok_of_toOption foundAfter, ?_, ?_⟩
  · rw [kinds]
    decide
  · rw [kindsAfter]
    decide

end CSharpTidy
