import CSharpTidy.Proofs.Retelling

/- The declarations of a source as a reader meets them. In front of each it is in live code, at the
   start of a line or right behind a token; the tokens of a declaration take it to the next one, so
   that all of them stand in rows, with the directives in front of each and inside of it. -/
namespace CSharpTidy

open CSharpTidy.Span CSharpTidy.Part PlacedToken

variable {own : List PlacedToken} {span : Span}

theorem Span.unmarked_of_undirected (h : span.directives = []) : span.Unmarked :=
  (unmarked_iff span).mpr (by simp [h])

namespace Trace

variable {r r' : Reader} {l : Lexeme} {as : List Atom} {s s' : List Char}

theorem front_token (h : Trace r (.token l :: as) s r' s') :
    r.conditional.isActive ∧ ¬ AtBreak s := by
  cases h with
  | cons first whole _ =>
    cases first with
    | token active front solid =>
      refine ⟨active, fun ends => ?_⟩
      rw [whole, Atom.text, front] at ends
      have breaks := ends _ rfl
      simp [isVoid, breaks] at solid

theorem back_token (h : Trace r (as ++ [.token l]) s r' s') :
    r'.place = .inside ∧ r'.conditional.isActive := by
  obtain ⟨r₁, s₁, -, last⟩ := h.split
  cases last.of_single.1 with
  | token active => exact ⟨rfl, active⟩

theorem trailing {c : Conditional} (active : c.isActive)
    (h : Trace ⟨.inside, c⟩ (span.map .trivia) s r' s')
    (inline : ∀ t ∈ span.dropLast, t.isEndOfLine = false) :
    r'.conditional = c ∧ span.directives = [] ∧ (span.endsLine → r'.place = .start) := by
  induction span generalizing s with
  | nil =>
    cases h
    exact ⟨rfl, rfl, by simp [endsLine]⟩
  | cons t span ih =>
    have goesOn : ∀ {s₁ : List Char}, t.directive? = none → t.isEndOfLine = false →
        Trace ⟨.inside, c⟩ (span.map .trivia) s₁ r' s' →
        r'.conditional = c ∧ directives (t :: span) = [] ∧
          (endsLine (t :: span) → r'.place = .start) := by
      intro s₁ plain solid more
      have later : ∀ t ∈ span.dropLast, t.isEndOfLine = false := by
        cases span with
        | nil => simp
        | cons next span => exact fun u mem => inline u (by simp_all [List.dropLast])
      obtain ⟨same, none, ends⟩ := ih more later
      refine ⟨same, by simp [directives_cons, plain, none], fun line => ends ?_⟩
      rw [endsLine_cons] at line
      split at line
      · rw [solid] at line
        cases line
      · exact line
    cases h with
    | cons first whole more =>
      cases first with
      | space kind nonempty spaces =>
        have stays := (Place.after_eq_inside_iff spaces .inside).mpr rfl
        rw [stays] at more
        exact goesOn (by simp [Trivia.directive?, kind]) (by simp [Trivia.isEndOfLine, kind]) more
      | lineEnd kind breaks =>
        have last : span = [] := by
          by_contra more
          obtain ⟨next, rest, rfl⟩ := List.exists_cons_of_ne_nil more
          have := inline t (by simp [List.dropLast])
          simp [Trivia.isEndOfLine, kind] at this
        subst last
        cases more
        exact ⟨rfl, by simp [directives, Trivia.directive?, kind], fun _ => rfl⟩
      | comment _ found =>
        obtain ⟨-, solid, plain, -⟩ := (Trivia.isRemark_of_found found).1.solid
        exact goesOn plain solid more
      | directive _ _ _ _ opens => exact absurd rfl opens
      | disabled _ _ inactive => exact absurd active (by simp [inactive])

end Trace

/-- In front of the tokens, and of `tail` behind them, a reader is in live code. It stands at the
start of a line, or right at the next token, or nothing is left to read. -/
structure Ahead (tail : Span) (c : Conditional) (g : Gap) (ts : List PlacedToken) : Prop where
  active : c.isActive
  traced : ∃ p s r, Trace ⟨p, c⟩ (ts.flatMap (fun t => t.toToken.atoms) ++ tail.map .trivia) s r []
    ∧ r.conditional.branches = [] ∧ (g = .fresh → p = .start)
  meets : g = .fresh ∨ front tail ts = [] ∧ g = if ts.isEmpty then .loose else .tight
  lexed : ∀ t ∈ ts, t.Lexed
  unhashed : ∀ t ∈ ts, t.text.toList.head? ≠ some '#'
  chained : Chained tail ts
  indented : ∀ t, ts.head? = some t → t.lineIndent ≠ none → g ≠ .fresh

/-- The tokens of a declaration, or of a part of it, read from state `c` to state `c'`. -/
structure Stretch (c : Conditional) (g : Gap) (own : List PlacedToken) (m c' : Conditional)
    (g' : Gap) : Prop where
  active : c.isActive
  fits : g.Fits (leadingOf own)
  leading : Flow false true c (leadingOf own) (leadingOf own).directives m
  indent : ∀ w, own.head?.bind PlacedToken.lineIndent = some w →
    leadingOf own = [] ∧ ∀ a ∈ w.toList, isSpace a
  text : Passes Atom.sign? m (join own).toList (signsOf own) c'
  through : m.Through (between own) c'
  solid : ∃ front a, (join own).toList = front ++ [a] ∧ Text.isBlank a = false
  trailing : g'.Behind c' (trailingOf own)
  undirected : (trailingOf own).directives = []

theorem Stretch.unmarked {c : Conditional} {g : Gap} {m c' : Conditional} {g' : Gap}
    (h : Stretch c g own m c' g') : (trailingOf own).Unmarked :=
  unmarked_of_undirected h.undirected

def directivesOf (ts : List PlacedToken) : List DirectiveKind :=
  (ts.flatMap fun t => t.toToken.atoms).filterMap Atom.directive?

theorem directivesOf_append (ts us : List PlacedToken) :
    directivesOf (ts ++ us) = directivesOf ts ++ directivesOf us := by
  simp [directivesOf]

theorem directivesOf_eq (own : List PlacedToken)
    (undirected : ∀ t ∈ own, t.trailing.directives = []) :
    (leadingOf own).directives ++ between own = directivesOf own := by
  by_cases nonempty : own = []
  · rw [nonempty]
    rfl
  · rw [directivesOf, atoms_eq nonempty, List.filterMap_append, List.filterMap_append,
      Atom.filterMap_trivia, Atom.filterMap_trivia, directives_trailingOf undirected,
      List.append_nil]
    rfl

namespace Ahead

variable {tail : Span} {c : Conditional} {g : Gap} {own ts : List PlacedToken}

theorem solid_join (closes : Closes own) :
    ∃ front a, (join own).toList = front ++ [a] ∧ Text.isBlank a = false := by
  obtain ⟨t, z, last, text, closer⟩ := closes
  obtain ⟨init, rfl⟩ := List.getLast?_eq_some_iff.mp last
  obtain ⟨atoms, stretched⟩ := stretch_concat init t
  refine ⟨atoms.flatMap Atom.text, z, ?_, not_isBlank_of_solid (solid_of_isCloser closer).1⟩
  rw [← text_stretch, stretched, List.flatMap_append]
  simp [Atom.text, text]

variable {s s' : List Char} {r : Reader}

theorem leading (h : Ahead tail c g (own ++ ts)) (nonempty : own ≠ []) {p : Place}
    (traced : Trace ⟨p, c⟩ ((leadingOf own).map .trivia) s r s') (starts : g = .fresh → p = .start)
    (live : r.conditional.isActive) (solid : ¬ AtBreak s') : g.Fits (leadingOf own) ∧
      Flow false true c (leadingOf own) (leadingOf own).directives r.conditional := by
  obtain ⟨t, more, rfl⟩ := List.exists_cons_of_ne_nil nonempty
  obtain fresh | ⟨empty, gap⟩ := h.meets
  · refine ⟨.inl fresh, ?_⟩
    have flow : Flow false true c ([] ++ leadingOf (t :: more)) _ r.conditional :=
      (flow_of_trace traced live fun ends => absurd ends solid).2 [] (by simp [White])
        (by simp [starts fresh])
    exact flow
  · have none : leadingOf (t :: more) = [] := empty
    rw [none] at traced ⊢
    cases traced
    exact ⟨.inr ⟨by simpa using gap, by simp [Inert]⟩, .nil _ _⟩

theorem exists_gap {r' : Reader} {s'' : List Char} (active : c.isActive)
    (inline : ∀ t ∈ span.dropLast, t.isEndOfLine = false)
    (trailing : Trace ⟨.inside, c⟩ (span.map .trivia) s r s')
    (rest : Trace r (ts.flatMap (fun t => t.toToken.atoms) ++ tail.map .trivia) s' r' s'')
    (joint : span.endsLine = false → front tail ts = []) : ∃ g' : Gap,
      g'.Behind c span ∧ (g' = .fresh → r.place = .start) ∧
      (g' = .fresh ∨ front tail ts = [] ∧ g' = if ts.isEmpty then .loose else .tight) ∧
      (span.endsLine = false → g' ≠ .fresh) := by
  obtain ⟨same, undirected, ends⟩ := trailing.trailing active inline
  have flow : ∀ next : Bool, (AtBreak s' → next) → Flow next false c span [] c := by
    intro next stop
    have flow : Flow next false c _ _ r.conditional :=
      (flow_of_trace trailing (same ▸ active) stop).1 rfl
    rwa [undirected, same] at flow
  cases line : span.endsLine with
  | true => exact ⟨.fresh, ⟨flow true fun _ => rfl, line⟩, fun _ => ends line, .inl rfl, by simp⟩
  | false =>
    have empty := joint line
    cases ts with
    | nil => exact ⟨.loose, flow true fun _ => rfl, by simp, .inr ⟨empty, rfl⟩, by simp⟩
    | cons next ts =>
      have leadingEmpty : next.leading = [] := empty
      have token : ¬ AtBreak s' := by
        rw [List.flatMap_cons, Token.atoms, leadingEmpty] at rest
        exact rest.front_token.2
      exact ⟨.tight, flow false fun stops => absurd stops token, by simp, .inr ⟨empty, rfl⟩,
        by simp⟩

theorem step (h : Ahead tail c g (own ++ ts)) (closes : Closes own) :
    ∃ m c' g', Stretch c g own m c' g' ∧ Ahead tail c' g' ts := by
  have nonempty : own ≠ [] := by
    rintro rfl
    obtain ⟨t, z, last, -⟩ := closes
    cases last
  obtain ⟨p, s, r, traced, closed, starts⟩ := h.traced
  simp only [List.flatMap_append, atoms_eq nonempty, List.append_assoc] at traced
  obtain ⟨r₁, s₁, leadingTrace, traced⟩ := traced.split
  obtain ⟨r₂, s₂, stretchTrace, traced⟩ := traced.split
  obtain ⟨r₃, s₃, trailingTrace, rest⟩ := traced.split
  obtain ⟨first, more, rfl⟩ := List.exists_cons_of_ne_nil nonempty
  obtain ⟨between, starting⟩ := stretch_cons first more
  obtain ⟨live, solid⟩ := (starting ▸ stretchTrace).front_token
  obtain ⟨placed, active⟩ : r₂.place = .inside ∧ r₂.conditional.isActive := by
    obtain ⟨init, last, whole⟩ := List.eq_nil_or_concat' (first :: more) |>.resolve_left nonempty
    obtain ⟨atoms, ending⟩ := stretch_concat init last
    rw [whole, ending] at stretchTrace
    exact stretchTrace.back_token
  have lexed := h.lexed
  have unhashed := h.unhashed
  rw [List.forall_mem_append] at lexed unhashed
  have lexedTrailing : (trailingOf (first :: more)).LexedTrailing := by
    have mem := List.getLast_mem nonempty
    have := (lexed.1 _ mem).token.trailing
    simpa [trailingOf, List.getLast?_eq_getLast_of_ne_nil nonempty] using this
  obtain ⟨fits, leading⟩ := h.leading nonempty leadingTrace starts live solid
  have passes := stretch_passes stretchTrace closes fun t head => unhashed.1 t (by simp_all)
  have through := stretchTrace.through
  obtain ⟨place, c'⟩ := r₂
  cases placed
  obtain ⟨same, undirected, -⟩ := trailingTrace.trailing active lexedTrailing.inline
  obtain ⟨joint, indented, chained⟩ := h.chained.append nonempty
  obtain ⟨g', behind, starts', meets, indents⟩ :=
    exists_gap active lexedTrailing.inline trailingTrace rest joint.inline
  refine ⟨r₁.conditional, c', g', ⟨h.active, fits, leading, ?_, passes, through, solid_join closes,
    behind, ?_⟩, ⟨active, ⟨r₃.place, s₃, r, ?_, closed, starts'⟩, meets, lexed.2, unhashed.2,
    chained, fun t head indent => indents (indented t head indent)⟩⟩
  · intro w found
    have inside : first.lineIndent = some w := found
    obtain fresh | ⟨empty, -⟩ := h.meets
    · exact absurd fresh (h.indented first rfl (by simp [inside]))
    · exact ⟨empty, (lexed.1 first (by simp)).indent w inside⟩
  · exact undirected
  · obtain ⟨place, state⟩ := r₃
    cases same
    exact rest

theorem finish (h : Ahead tail c g []) : ∃ c', Flow true true c tail tail.directives c' ∧
    c'.branches = [] ∧ (g.Fits tail ∨ tail = []) := by
  obtain ⟨p, s, r, traced, closed, starts⟩ := h.traced
  obtain fresh | ⟨empty, -⟩ := h.meets
  · have flow : Flow true true c ([] ++ tail) _ r.conditional :=
      (flow_of_trace traced (Conditional.isActive_of_closed closed) fun _ => rfl).2 []
        (by simp [White]) (by simp [starts fresh])
    exact ⟨_, flow, closed, .inl (.inl fresh)⟩
  · have none : tail = [] := empty
    subst none
    cases traced
    exact ⟨_, .nil _ _, closed, .inr rfl⟩

end Ahead

namespace Stretch

variable {c c₀ m c' : Conditional} {g g' : Gap} {own : List PlacedToken} {p : Part}

theorem runs (h : Stretch c₀ g own m c' g') (text : p.text = join own)
    (trailing : p.trailing = trailingOf own) (leading : Flow false true c p.leading
      p.leading.directives m)
    (indent : ∀ w, p.indent = some w → p.leading = [] ∧ ∀ a ∈ w.toList, isSpace a) :
    p.Runs c m c' (signsOf own) := by
  refine ⟨leading, ?_, ?_, ?_, indent⟩
  · rw [text]
    exact h.text
  · rw [text]
    exact h.solid
  · rw [trailing]
    exact h.trailing.flow

theorem leaves (h : Stretch c₀ g own m c' g') (trailing : p.trailing = trailingOf own) :
    p.Leaves c' (if p.ends then .fresh else g') := by
  unfold Part.Leaves
  split
  · rfl
  · rw [trailing]
    exact h.trailing

end Stretch

def Marker.fixed (ks : List DirectiveKind) : List Marker :=
  ks.map fun kind => ⟨kind, true⟩

@[simp] theorem Marker.left_fixed (ks : List DirectiveKind) : left (fixed ks) = ks := by
  simp [left, fixed, List.filter_map, Function.comp_def]

@[simp] theorem Marker.map_kind_fixed (ks : List DirectiveKind) : (fixed ks).map kind = ks := by
  simp [fixed, Function.comp_def]

/-- The directives of each declaration. Those in front of it belong to the block around it. -/
def Decl.words (pinned : Bool) (ds : List Decl) (insides : List (List Marker)) :
    List (List Marker) :=
  List.zipWith (fun d inside => d.leading.markers pinned ++ inside) ds insides

/-- The directives inside of the declarations of a block, and those in its closing text. -/
structure Insides where
  imports : List (List Marker)
  attributes : List (List Marker)
  members : List (List Marker)
  close : List Marker

namespace Block

def declMarkers (b : Block Decl) (w : Insides) : List Marker :=
  (Decl.words b.membersGuarded b.imports w.imports ++
    Decl.words b.membersGuarded b.attributes w.attributes ++
    Decl.words b.membersGuarded b.members w.members).flatten

def markers (b : Block Decl) (w : Insides) : List Marker :=
  b.declMarkers w ++ (b.closeLeading.markers b.membersGuarded ++ w.close)

def settled (roots : List String) (b : Block Decl) (w : Insides) : Bool :=
  Decl.settled b.importsGuarded (Decl.importLE roots) b.imports
      (Decl.words b.membersGuarded b.imports w.imports) &&
    Decl.settled b.membersGuarded Decl.memberLE b.members
      (Decl.words b.membersGuarded b.members w.members)

end Block

theorem Item.map_word (pinned : Bool) (items : List Item) :
    items.map (word pinned) = Decl.words pinned (items.map decl) (items.map inside) := by
  induction items with
  | nil => rfl
  | cons i items ih => simp only [List.map_cons, ih, Decl.words, List.zipWith_cons_cons, word]

theorem Decl.words_mapBlocks (pinned : Bool) (f : Block Decl → Block Decl) (ds : List Decl)
    (insides : List (List Marker)) :
    words pinned (ds.map (mapBlocks f)) insides = words pinned ds insides := by
  simp only [words, List.zipWith_map_left, mapBlocks_eq]

theorem Item.moves_of_body {i : Item} {b : Block Decl} (block : i.decl.block = some b)
    {c₀ c₁ c₂ : Conditional} {g₀ g₁ o : Gap} (opening : Stretch c₀ g₀ own i.mid c₁ g₁)
    (text : i.decl.text = join own) (openTrailing : b.openTrailing = trailingOf own)
    (spaces : ∀ w, i.decl.lineIndent = some w → ∀ a ∈ w.toList, isSpace a) {inner last : List Sign}
    (content : Chain (if b.opensLine then .fresh else g₁) c₁ b.parts inner o c₂)
    (closing : Chain o c₂ [⟨b.closingSpacing, i.decl.kind.endsLine, none, b.closeLeading, b.close,
      i.decl.trailing⟩] last i.outGap i.back) (out : i.out = signsOf own ++ inner ++ last) :
    i.Moves := by
  intro leading c g packed lineStart flow fits indent
  obtain ⟨⟨kind, visibility, key, front, name, body, trailing, lineIndent⟩, entry, start, m, c',
    inside, ks, behind⟩ := i
  cases block
  simp only at flow fits indent text spaces closing opening
  rw [out]
  simp only [Decl.withLeading, Decl.memberParts, Block.partsOption]
  have runs : (b.openingPart ⟨if packed then .packed else kind.spacing, kind.endsLine,
      if lineStart then lineIndent else none, leading, name, trailing⟩).Runs c m c₁
        (signsOf own) := by
    refine opening.runs text openTrailing flow fun w asked => ?_
    have found : lineIndent = some w := by
      cases lineStart with
      | true => exact asked
      | false => cases asked
    exact ⟨indent.resolve_left (by simp [found]), spaces w found⟩
  have chain := Chain.cons runs (fits.imp_left fun spaced => by simp [Block.openingPart, spaced])
    (opening.leaves openTrailing) (content.append closing)
  simpa only [List.append_assoc, Block.openingPart, Block.closingPart] using chain

/-- The declarations of a block stand in rows once their bodies are arranged, with these directives
inside of them. -/
structure Block.InRows (roots : List String) (b : Block Decl) (w : Insides) (c : Conditional)
    (g : Gap) (imports attributes members : List Item) (c' : Conditional) (g' : Gap) : Prop where
  rows : Rows { b with members := b.members.map (Decl.mapBlocks (arrange roots)) } c g imports
    attributes members c' g'
  imports : imports.map Item.inside = w.imports
  attributes : attributes.map Item.inside = w.attributes
  members : members.map Item.inside = w.members

namespace Block.InRows

variable {roots : List String} {b : Block Decl} {w : Insides} {c c' : Conditional} {g g' : Gap}
  {imports attributes members : List Item}

theorem words (h : b.InRows roots w c g imports attributes members c' g') (pinned : Bool) :
    imports.map (Item.word pinned) = Decl.words pinned b.imports w.imports ∧
      attributes.map (Item.word pinned) = Decl.words pinned b.attributes w.attributes ∧
      members.map (Item.word pinned) = Decl.words pinned b.members w.members := by
  rw [Item.map_word, Item.map_word, Item.map_word, h.rows.importDecls, h.rows.attributeDecls,
    h.rows.memberDecls, Decl.words_mapBlocks, h.imports, h.attributes, h.members]
  exact ⟨rfl, rfl, rfl⟩

theorem declMarkers (h : b.InRows roots w c g imports attributes members c' g') :
    (imports ++ attributes ++ members).flatMap (Item.word b.membersGuarded) = b.declMarkers w := by
  obtain ⟨first, second, third⟩ := h.words b.membersGuarded
  rw [List.flatMap_def, List.map_append, List.map_append, first, second, third]
  rfl

theorem through (h : b.InRows roots w c g imports attributes members c' g') :
    c.Through ((b.declMarkers w).map Marker.kind) c' := by
  rw [← h.declMarkers]
  exact h.rows.row.states.through h.rows.sound _

theorem arrange (h : b.InRows roots w c g imports attributes members c' g')
    (closing : b.Closing c' g') (settled : b.settled roots w) {o : Gap} (within : o.Within g) :
    ∃ o', Chain o c (b.mapBlocks (Block.arrange roots)).parts
        ((Rows.order roots b.membersGuarded b.importsGuarded imports attributes members).flatMap
          Item.signs) o' c' ∧
      (o' = .loose → g' = .loose) ∧
      (o' = .loose ∨ o'.Fits (b.mapBlocks (Block.arrange roots)).closeLeading) ∧
      Replaces (Marker.left (b.declMarkers w))
        ((Rows.order roots b.membersGuarded b.importsGuarded imports attributes members).flatMap
          Item.kinds) := by
  obtain ⟨first, -, third⟩ := h.words b.membersGuarded
  rw [← h.declMarkers, Block.mapBlocks_eq]
  simp only [Block.settled, Bool.and_eq_true, ← first, ← third] at settled
  have arranged := h.rows.arrange (o := o) ⟨closing.active, closing.leading, closing.meets⟩ roots
  rw [Block.membersGuarded_mapBlocks] at arranged
  refine arranged settled.1 ?_ within
  simp only [Decl.settled, List.pairwise_map, Bool.or_eq_true, decide_eq_true_eq] at settled ⊢
  refine settled.2.imp_left fun sorted => sorted.imp_right fun inOrder => inOrder.imp ?_
  intro d e before
  rw [← before]
  exact Decl.memberLE_congr (by simp [Decl.mapBlocks_eq]) (by simp [Decl.mapBlocks_eq])

theorem arranged (h : b.InRows roots w c g imports attributes members c' g') :
    (b.mapBlocks (Block.arrange roots)).InOrder roots ∧
      (b.mapBlocks (Block.arrange roots)).imports = (Item.sorted b.membersGuarded b.importsGuarded
        (Decl.importLE roots) imports).map Item.decl ∧
      (b.mapBlocks (Block.arrange roots)).attributes =
        (attributes.map (Item.strip b.membersGuarded)).map Item.decl ∧
      (b.mapBlocks (Block.arrange roots)).members = (Item.sorted b.membersGuarded b.membersGuarded
        Decl.memberLE members).map Item.decl := by
  rw [Block.mapBlocks_eq]
  refine ⟨Block.arrange_inOrder .., ?_⟩
  rw [h.rows.arrange_eq roots, Block.membersGuarded_mapBlocks]
  exact ⟨rfl, rfl, rfl⟩

end Block.InRows

/-- A body may be read again with its imports and its members sorted. -/
theorem Outline.Rows.sorted {scope : Scope} {imports attributes members : List CSharpTidy.Item}
    {closed : Bool} (h : Outline.Rows CSharpTidy.Item.entry CSharpTidy.Item.lexemes scope imports
      attributes members closed) (roots : List String) (pinned stays : Bool) :
    Outline.Rows CSharpTidy.Item.entry CSharpTidy.Item.lexemes scope
      (Item.sorted pinned stays (Decl.importLE roots) imports)
      (attributes.map (Item.strip pinned)) (Item.sorted pinned pinned Decl.memberLE members)
      closed := by
  refine ⟨fun last => ?_, Item.forall_sorted fun i mem => h.imports i mem,
    List.forall_mem_map.mpr fun i mem => h.attributes i mem,
    Item.forall_sorted fun i mem => h.members i mem⟩
  rw [(Item.sorted_perm ..).length_eq, List.length_map]
  exact h.alone last

theorem Item.Told.order {roots : List String} {imports attributes members : List Item}
    (h : ∀ i ∈ imports ++ attributes ++ members, i.Told roots) (pinned stays : Bool) :
    ∀ i ∈ Block.Rows.order roots pinned stays imports attributes members, i.Told roots := by
  simp only [Block.Rows.order, List.forall_mem_append] at h ⊢
  exact ⟨⟨forall_sorted fun i mem => (h.1.1 i mem).strip pinned,
    List.forall_mem_map.mpr fun i mem => (h.1.2 i mem).strip pinned⟩,
    forall_sorted fun i mem => (h.2 i mem).strip pinned⟩

namespace Outline

mutual

def Entry.inside : Entry → List PlacedToken → List Marker
  | ⟨_, _, _, size, body⟩, ts =>
      Marker.fixed (between (ts.take size)) ++
        Body.insideOption body (trailingOf (ts.take size)) (ts.drop size)

def Body.insideOption : Option (Body Entry) → Span → List PlacedToken → List Marker
  | none, _, _ => []
  | some body, opening, ts => (Body.build body opening ts).block.markers (Body.insides body ts)

def Body.insides : Body Entry → List PlacedToken → Insides
  | ⟨_, imports, attributes, members, closing⟩, ts =>
      let behindImports := ts.drop (Entry.countAll imports)
      let behindAttributes := behindImports.drop (Entry.countAll attributes)
      let behindMembers := behindAttributes.drop (Entry.countAll members)
      ⟨Entry.insideAll imports ts, Entry.insideAll attributes behindImports,
        Entry.insideAll members behindAttributes,
        Marker.fixed (between (behindMembers.take closing))⟩

def Entry.insideAll : List Entry → List PlacedToken → List (List Marker)
  | [], _ => []
  | e :: rest, ts => Entry.inside e ts :: Entry.insideAll rest (ts.drop e.count)

end

mutual

def Entry.settled (roots : List String) : Entry → List PlacedToken → Bool
  | ⟨_, _, _, size, body⟩, ts =>
      Body.settledOption roots body (trailingOf (ts.take size)) (ts.drop size)

def Body.settledOption (roots : List String) : Option (Body Entry) → Span → List PlacedToken → Bool
  | none, _, _ => true
  | some body, opening, ts =>
      (Body.build body opening ts).block.settled roots (Body.insides body ts) &&
        Body.settledInside roots body ts

def Body.settledInside (roots : List String) : Body Entry → List PlacedToken → Bool
  | ⟨_, imports, attributes, members, _⟩, ts =>
      Entry.settledAll roots members
        ((ts.drop (Entry.countAll imports)).drop (Entry.countAll attributes))

def Entry.settledAll (roots : List String) : List Entry → List PlacedToken → Bool
  | [], _ => true
  | e :: rest, ts => Entry.settled roots e ts && Entry.settledAll roots rest (ts.drop e.count)

end

theorem Body.insides_close (b : Body Entry) (ts : List PlacedToken) :
    (b.insides ts).close = Marker.fixed (between ((ts.drop b.inner).take b.closing)) := by
  cases b
  simp only [Body.insides, Body.inner, List.drop_drop]

theorem Entry.build_leading (e : Entry) (ts : List PlacedToken) :
    (e.build ts).1.leading = leadingOf (ts.take e.size) := by
  obtain ⟨kind, visibility, key, size, body⟩ := e
  cases body <;> rfl

theorem Entry.build_text (e : Entry) (ts : List PlacedToken) :
    (e.build ts).1.text = join (ts.take e.size) := by
  obtain ⟨kind, visibility, key, size, body⟩ := e
  cases body <;> rfl

variable {b body : Body Entry} {es : List Entry} {header e : Entry}

theorem Body.markers_kinds {opening : Span} {ts : List PlacedToken}
    (undirected : ∀ t ∈ ts, t.trailing.directives = [])
    (decls : ((b.build opening ts).block.declMarkers (b.insides ts)).map Marker.kind =
      directivesOf (ts.take b.inner)) :
    ((b.build opening ts).block.markers (b.insides ts)).map Marker.kind =
      directivesOf (ts.take b.count) := by
  have close := directivesOf_eq ((ts.drop b.inner).take b.closing) fun t mem =>
    undirected t (List.mem_of_mem_drop (List.mem_of_mem_take mem))
  rw [Block.markers, List.map_append, decls, List.map_append, map_kind_markers, b.insides_close,
    Marker.map_kind_fixed, (b.build_close opening ts).1, close, Body.count_eq, List.take_add,
    directivesOf_append]

mutual

theorem Entry.inside_kinds : (e : Entry) → (ts : List PlacedToken) →
    (∀ t ∈ ts, t.trailing.directives = []) →
    (leadingOf (ts.take e.size)).directives ++ (e.inside ts).map Marker.kind =
      directivesOf (ts.take e.count)
  | ⟨kind, visibility, key, size, none⟩, ts, undirected => by
    have own := directivesOf_eq (ts.take size) fun t mem =>
      undirected t (List.mem_of_mem_take mem)
    simp [Entry.inside, Body.insideOption, Entry.count, Body.countOption, own]
  | ⟨kind, visibility, key, size, some b⟩, ts, undirected => by
    have own := directivesOf_eq (ts.take size) fun t mem =>
      undirected t (List.mem_of_mem_take mem)
    have behind : ∀ t ∈ ts.drop size, t.trailing.directives = [] := fun t mem =>
      undirected t (List.mem_of_mem_drop mem)
    have body := Body.markers_kinds behind
      (Body.declMarkers_kinds b (trailingOf (ts.take size)) (ts.drop size) behind)
    rw [Entry.inside, Body.insideOption, List.map_append, Marker.map_kind_fixed, body,
      ← List.append_assoc, own, Entry.count, Body.countOption, List.take_add, directivesOf_append]

theorem Body.declMarkers_kinds : (b : Body Entry) → (opening : Span) → (ts : List PlacedToken) →
    (∀ t ∈ ts, t.trailing.directives = []) →
    ((b.build opening ts).block.declMarkers (b.insides ts)).map Marker.kind =
      directivesOf (ts.take b.inner)
  | ⟨braced, imports, attributes, members, closing⟩, opening, ts, undirected => by
    have behindImports : ∀ t ∈ ts.drop (Entry.countAll imports), t.trailing.directives = [] :=
      fun t mem => undirected t (List.mem_of_mem_drop mem)
    have behindAttributes : ∀ t ∈ (ts.drop (Entry.countAll imports)).drop
        (Entry.countAll attributes), t.trailing.directives = [] :=
      fun t mem => behindImports t (List.mem_of_mem_drop mem)
    simp only [Body.build, Body.insides, Block.declMarkers, Body.inner, List.flatten_append,
      List.map_append, Entry.buildAll_rest]
    rw [Entry.words_kinds _ imports ts undirected, Entry.words_kinds _ attributes _ behindImports,
      Entry.words_kinds _ members _ behindAttributes, List.take_add, List.take_add,
      directivesOf_append, directivesOf_append, List.drop_drop]

theorem Entry.words_kinds (pinned : Bool) : (es : List Entry) → (ts : List PlacedToken) →
    (∀ t ∈ ts, t.trailing.directives = []) →
    (Decl.words pinned (Entry.buildAll es ts).1 (Entry.insideAll es ts)).flatten.map Marker.kind =
      directivesOf (ts.take (Entry.countAll es))
  | [], ts, _ => by
    rw [Entry.countAll, List.take_zero]
    rfl
  | e :: rest, ts, undirected => by
    have first := Entry.inside_kinds e ts undirected
    have others := Entry.words_kinds pinned rest (ts.drop e.count) fun t mem =>
      undirected t (List.mem_of_mem_drop mem)
    rw [Decl.words] at others ⊢
    rw [Entry.buildAll, Entry.insideAll, List.zipWith_cons_cons, List.flatten_cons, List.map_append,
      List.map_append, map_kind_markers, Entry.build_leading, first, Entry.build_rest, others,
      Entry.countAll, List.take_add, directivesOf_append]

end

theorem closes_of_closed (h : Closed (own.map (·.toLexeme))) : Closes own := by
  obtain ⟨l, last, closes⟩ := h
  rw [List.getLast?_map, Option.map_eq_some_iff] at last
  obtain ⟨t, last, rfl⟩ := last
  simp only [Lexeme.closes, Bool.or_eq_true, beq_iff_eq] at closes
  obtain ((text | text) | text) | text := closes
  · exact ⟨t, ';', last, text, rfl⟩
  · exact ⟨t, '\x7b', last, text, rfl⟩
  · exact ⟨t, '\x7d', last, text, rfl⟩
  · exact ⟨t, ']', last, text, rfl⟩

/-- A closer is no word. -/
def Regular (ts : List PlacedToken) : Prop :=
  ∀ t ∈ ts, t.toLexeme.closes → t.toLexeme.isWord = false

/-- What is known of the declaration at the front of the tokens once its body is arranged. -/
structure Entry.Meets (roots : List String) (tail : Span) (role : Role) (scope : Scope) (e : Entry)
    (c : Conditional) (g : Gap) (ts : List PlacedToken) (i : CSharpTidy.Item) : Prop where
  decl : i.decl = (e.build ts).1.mapBlocks (Block.arrange roots)
  front : i.front = c
  inside : i.inside = e.inside ts
  fits : g.Fits i.decl.leading
  sound : i.Sound
  moves : i.Moves
  plain : e.body = none → i.Plain
  told : i.Told roots
  spelt : Regular ts → e.Stands scope (ts.map (·.toLexeme)) role →
    Steps role scope e.isClosed i.entry i.lexemes
  ahead : Ahead tail i.back i.gap (ts.drop e.count)

def Entry.Met (roots : List String) (tail : Span) (e : Entry) : Prop :=
  ∀ {c : Conditional} {g : Gap} {ts : List PlacedToken}, Ahead tail c g ts → e.count ≤ ts.length →
    ∀ {role scope}, e.Ends role scope (ts.map (·.toLexeme)) → e.settled roots ts →
    ∃ i, e.Meets roots tail role scope c g ts i

variable {roots : List String} {tail : Span} {c : Conditional} {g : Gap} {ts : List PlacedToken}
  {role : Role} {scope : Scope}

theorem Entry.ends_opening (h : e.Ends role scope (ts.map (·.toLexeme))) :
    Closes (ts.take e.size) := by
  obtain ⟨kind, visibility, key, size, body⟩ := e
  refine closes_of_closed ?_
  rw [List.map_take]
  exact h.1

theorem Entry.Plain.met (plain : e.Plain) : e.Met roots tail := by
  intro c g ts h enough role scope ends settled
  rw [← List.take_append_drop e.size ts] at h
  have closes := ends_opening ends
  obtain ⟨m, c', g', own, ahead⟩ := h.step closes
  have unbodied : (e.build ts).1.block = none := by rw [Entry.build_plain plain.body]
  have inside : e.inside ts = Marker.fixed (between (ts.take e.size)) := by
    obtain ⟨kind, visibility, key, size, body⟩ := e
    cases plain.body
    simp [Entry.inside, Body.insideOption]
  let i : CSharpTidy.Item :=
    ⟨(e.build ts).1, e, c, m, c', e.inside ts, ledOf (ts.take e.size), g'⟩
  have out : i.out = signsOf (ts.take e.size) := signs_ledOf _
  have built := Entry.build_plain plain.body ts
  have sound : i.Sound := by
    refine ⟨own.active, ?_, fun w asked => ?_, ?_, ?_, ?_⟩
    · simpa only [i, built] using own.leading
    · simp only [i, built] at asked ⊢
      exact own.indent w asked
    · simpa only [i, built] using own.unmarked
    · simpa only [i, inside, Marker.map_kind_fixed] using own.through
    · rw [out]
      simpa only [i, inside, Marker.left_fixed, directives_signsOf] using Replaces.refl _
  have isPlain : i.Plain := by
    refine ⟨unbodied, ?_, ?_, ?_⟩
    · rw [out]
      simpa only [i, built] using own.text
    · simpa only [i, built] using own.solid
    · simpa only [i, built] using own.trailing
  have told : i.Told roots := by
    refine .of_plain plain.body rfl (ne_nil_of_closes closes) ?_ ?_ ?_ ?_ ?_
    · rw [List.length_take, Nat.min_eq_left]
      exact Entry.count_of_no_body plain.body ▸ enough
    all_goals simp only [i, built, own.undirected]
  refine ⟨i, ?_, rfl, rfl, ?_, sound, isPlain.moves sound, fun _ => isPlain, told,
    fun regular stands => ?_, ?_⟩
  · simp only [i, built, Decl.mapBlocks_eq, Option.map_none]
  · simpa only [i, built] using own.fits
  · have steps := Entry.steps_plain plain.body ends (List.forall_mem_map.mpr regular) stands
    rwa [← List.map_take, ← lexemes_signsOf, ← out, Item.out, Led.lexemes_signs] at steps
  · rw [Entry.count_of_no_body plain.body]
    exact ahead

theorem exists_row (met : ∀ e ∈ es, e.Met roots tail) (h : Ahead tail c g ts)
    (enough : Entry.countAll es ≤ ts.length)
    (ends : Entry.EndsAll role scope es (ts.map (·.toLexeme)))
    (settled : Entry.settledAll roots es ts) : ∃ items c' g', Item.Row c g items c' g' ∧
      items.map Item.decl = (Entry.buildAll es ts).1.map (Decl.mapBlocks (Block.arrange roots)) ∧
      items.map Item.inside = Entry.insideAll es ts ∧
      (∀ i ∈ items, i.Sound ∧ i.Moves ∧ i.Told roots) ∧
      ((∀ e ∈ es, e.body = none) → ∀ i ∈ items, i.Plain) ∧
      (Regular ts → Entry.StandsAll scope es (ts.map (·.toLexeme)) role → ∀ i ∈ items, ∃ e ∈ es,
        Steps role scope e.isClosed i.entry i.lexemes) ∧
      Ahead tail c' g' (ts.drop (Entry.countAll es)) := by
  induction es generalizing c g ts with
  | nil =>
    exact ⟨[], c, g, .nil c g, rfl, rfl, by simp, by simp, by simp,
      by simpa [Entry.countAll] using h⟩
  | cons e es ih =>
    rw [List.forall_mem_cons] at met
    simp only [Entry.countAll, Entry.EndsAll, Entry.settledAll,
      Bool.and_eq_true] at enough ends settled
    obtain ⟨i, first⟩ := met.1 h (by omega) ends.1 settled.1
    obtain ⟨items, c', g', row, decls, insides, known, plain, spelt, ahead⟩ := ih met.2 first.ahead
      (by rw [List.length_drop]; omega) (by rw [List.map_drop]; exact ends.2) settled.2
    refine ⟨i :: items, c', g', ?_, ?_, ?_, ?_, ?_, fun regular stands => ?_, ?_⟩
    · rw [← first.front]
      exact .cons first.fits row
    · rw [List.map_cons, decls, first.decl, Entry.buildAll, Entry.build_rest]
      rfl
    · rw [List.map_cons, insides, first.inside, Entry.insideAll]
    · exact List.forall_mem_cons.mpr ⟨⟨first.sound, first.moves, first.told⟩, known⟩
    · intro unbodied
      rw [List.forall_mem_cons] at unbodied
      exact List.forall_mem_cons.mpr ⟨first.plain unbodied.1, plain unbodied.2⟩
    · have stands := Entry.standsAll_cons stands
      have later := spelt (fun t mem => regular t (List.mem_of_mem_drop mem))
        (by rw [List.map_drop]; exact stands.2)
      refine List.forall_mem_cons.mpr ⟨⟨e, List.mem_cons_self, first.spelt regular stands.1⟩, ?_⟩
      intro j mem
      obtain ⟨e', inside, steps⟩ := later j mem
      exact ⟨e', List.mem_cons_of_mem e inside, steps⟩
    · rw [Entry.countAll, ← List.drop_drop]
      exact ahead

theorem buildAll_plain (plain : ∀ e ∈ es, e.Plain) (ts : List PlacedToken)
    (f : Block Decl → Block Decl) :
    (Entry.buildAll es ts).1.map (Decl.mapBlocks f) = (Entry.buildAll es ts).1 := by
  induction es generalizing ts with
  | nil => rfl
  | cons e es ih =>
    rw [List.forall_mem_cons] at plain
    rw [Entry.buildAll, List.map_cons, ih plain.2, Entry.build_plain plain.1.body]
    simp only [Decl.mapBlocks_eq, Option.map_none]

theorem settledAll_of_plain (roots : List String) (plain : ∀ e ∈ es, e.Plain)
    (ts : List PlacedToken) : Entry.settledAll roots es ts := by
  induction es generalizing ts with
  | nil => rfl
  | cons e es ih =>
    rw [List.forall_mem_cons] at plain
    obtain ⟨kind, visibility, key, size, body⟩ := e
    cases plain.1.body
    simpa [Entry.settledAll, Entry.settled, Body.settledOption] using ih plain.2 _

/-- What is known of the declarations in a body when the text that they are arranged in is read
again. -/
structure Body.Respelt (roots : List String) (scope : Scope) (body : Body Entry)
    (ts : List PlacedToken) (imports attributes members : List CSharpTidy.Item) : Prop where
  told : ∀ i ∈ imports ++ attributes ++ members, i.Told roots
  rows : Regular ts → body.lone scope (ts.map (·.toLexeme)) →
    Outline.Rows CSharpTidy.Item.entry CSharpTidy.Item.lexemes scope imports attributes members
      (body.members.all Entry.isClosed)

theorem Body.met (preamble : ∀ e ∈ body.imports ++ body.attributes, e.Plain)
    (members : ∀ e ∈ body.members, e.Met roots tail) (h : Ahead tail c g ts)
    (enough : body.inner ≤ ts.length) (ends : body.Ends scope (ts.map (·.toLexeme)))
    (settled : body.settledInside roots ts) (opening : Span) :
    ∃ imports attributes members c' g', (body.build opening ts).block.InRows roots (body.insides ts)
      c g imports attributes members c' g' ∧ Ahead tail c' g' (ts.drop body.inner) ∧
      body.Respelt roots scope ts imports attributes members := by
  obtain ⟨braced, importEntries, attributeEntries, memberEntries, closing⟩ := body
  rw [List.forall_mem_append] at preamble
  simp only [Body.inner] at enough preamble members
  simp only [Body.Ends, Body.settledInside] at ends settled
  -- Each row starts in the state and at the token where the one in front of it ends.
  obtain ⟨imports, c₁, g₁, importRow, importDecls, importInsides, importsKnown, importsPlain,
    importsSpelt, behindImports⟩ := exists_row (fun e mem => (preamble.1 e mem).met) h (by omega)
      ends.1 (settledAll_of_plain roots preamble.1 ts)
  obtain ⟨attributes, c₂, g₂, attributeRow, attributeDecls, attributeInsides, attributesKnown,
    attributesPlain, attributesSpelt, behindAttributes⟩ :=
    exists_row (fun e mem => (preamble.2 e mem).met) behindImports
      (by rw [List.length_drop]; omega) (by rw [List.map_drop]; exact ends.2.1)
      (settledAll_of_plain roots preamble.2 _)
  obtain ⟨members, c₃, g₃, memberRow, memberDecls, memberInsides, membersKnown, -, membersSpelt,
    ahead⟩ := exists_row members behindAttributes (by simp only [List.length_drop]; omega)
      (by rw [List.map_drop, List.map_drop, List.drop_drop]; exact ends.2.2.1) settled
  rw [buildAll_plain preamble.1] at importDecls
  rw [buildAll_plain preamble.2] at attributeDecls
  have sameLength : members.length = memberEntries.length := by
    have lengths := congrArg List.length memberDecls
    have kinds := congrArg List.length (Entry.buildAll_kind memberEntries
      ((ts.drop (Entry.countAll importEntries)).drop (Entry.countAll attributeEntries)))
    simp only [List.length_map] at lengths kinds
    exact lengths.trans kinds
  refine ⟨imports, attributes, members, c₃, g₃, ⟨⟨?_, ?_, ?_, ?_, ?_, ?_, ?_⟩, importInsides,
    attributeInsides, memberInsides⟩, ?_, ?_, fun regular lone => ?_⟩
  · exact importDecls
  · simpa only [Body.build, Entry.buildAll_rest] using attributeDecls
  · simpa only [Body.build, Entry.buildAll_rest] using memberDecls
  · exact (importRow.append attributeRow).append memberRow
  · simp only [List.forall_mem_append]
    exact ⟨⟨fun i mem => (importsKnown i mem).1, fun i mem => (attributesKnown i mem).1⟩,
      fun i mem => (membersKnown i mem).1⟩
  · rw [List.forall_mem_append]
    exact ⟨importsPlain fun e mem => (preamble.1 e mem).body,
      attributesPlain fun e mem => (preamble.2 e mem).body⟩
  · exact fun i mem => (membersKnown i mem).2.1
  · simpa only [Body.inner, List.drop_drop, Nat.add_assoc] using ahead
  · simp only [List.forall_mem_append]
    exact ⟨⟨fun i mem => (importsKnown i mem).2.2, fun i mem => (attributesKnown i mem).2.2⟩,
      fun i mem => (membersKnown i mem).2.2⟩
  · obtain ⟨single, lone⟩ := Bool.and_eq_true_iff.mp lone
    have whole := Entry.isClosed_of_lone single
    refine ⟨fun last => ?_, fun i mem => ?_, fun i mem => ?_, fun i mem => ?_⟩
    · rw [last, Bool.false_or, beq_iff_eq] at single
      exact Nat.le_of_eq (sameLength.trans single)
    · obtain ⟨e, inside, steps⟩ := importsSpelt regular (fun e mem => (preamble.1 e mem).body) i mem
      rwa [Entry.isClosed_of_unbodied (preamble.1 e inside).body] at steps
    · obtain ⟨e, inside, steps⟩ := attributesSpelt
        (fun t mem => regular t (List.mem_of_mem_drop mem))
        (fun e mem => (preamble.2 e mem).body) i mem
      rwa [Entry.isClosed_of_unbodied (preamble.2 e inside).body] at steps
    · obtain ⟨e, inside, steps⟩ := membersSpelt
        (fun t mem => regular t (List.mem_of_mem_drop (List.mem_of_mem_drop mem)))
        (by rw [List.map_drop, List.map_drop, List.drop_drop]; exact lone) i mem
      rwa [whole e inside] at steps

theorem mapBlocks_arrange_frame (roots : List String) (b : Block Decl) :
    (b.mapBlocks (Block.arrange roots)).braced = b.braced ∧
      (b.mapBlocks (Block.arrange roots)).openTrailing =
        Span.stripUnless b.membersGuarded b.openTrailing ∧
      (b.mapBlocks (Block.arrange roots)).closeLeading =
        Span.stripUnless b.membersGuarded b.closeLeading ∧
      (b.mapBlocks (Block.arrange roots)).close = b.close := by
  rw [Block.mapBlocks_eq, Block.arrange_eq, Block.membersGuarded_mapBlocks]
  exact ⟨rfl, rfl, rfl, rfl⟩

theorem stripUnless_of_unmarked (h : span.Unmarked) (pinned : Bool) :
    Span.stripUnless pinned span = span := by
  cases pinned with
  | true => rfl
  | false => exact (stripRegions_eq_self_iff span).mpr h

theorem flow_stripUnless {c' : Conditional} {next fresh : Bool}
    (h : Flow next fresh c span span.directives c') (pinned : Bool) :
    Flow next fresh c (Span.stripUnless pinned span) (Span.stripUnless pinned span).directives
      c' := by
  cases pinned with
  | true => exact h
  | false =>
    have flow := h.stripRegions.1
    rwa [← directives_stripRegions] at flow

theorem Entry.inside_with_body (header : Entry) (b : Body Entry) (ts : List PlacedToken) :
    Entry.inside { header with body := some b } ts = Marker.fixed (between (ts.take header.size)) ++
      (b.build (trailingOf (ts.take header.size)) (ts.drop header.size)).block.markers
        (b.insides (ts.drop header.size)) := by
  cases header
  rfl

theorem Body.Ends.shut (h : b.Ends scope (ts.map (·.toLexeme))) (positive : 0 < b.closing) :
    Shut (((ts.drop b.inner).take b.closing).map (·.toLexeme)) := by
  obtain ⟨braced, imports, attributes, members, closing⟩ := b
  rw [List.map_take, List.map_drop]
  exact h.2.2.2 positive

/-- The end of a body: its closing trivia, its closing text and what is behind it. -/
structure Body.Shuts (roots : List String) (ends : Bool) (body : Body Entry) (opening : Span)
    (ts : List PlacedToken) (c : Conditional) (g : Gap) (c' : Conditional) (g' : Gap) : Prop where
  closing : (body.build opening ts).block.Closing c g
  through : c.Through ((body.build opening ts).block.closeLeading.directives ++
    between ((ts.drop body.inner).take body.closing)) c'
  undirected : (body.build opening ts).trailing.directives = []
  chain : ∀ {o : Gap} {b : Block Decl},
    b = (body.build opening ts).block.mapBlocks (Block.arrange roots) → (o = .loose → g = .loose) →
    (o = .loose ∨ o.Fits b.closeLeading) →
    Chain o c [⟨b.closingSpacing, ends, none, b.closeLeading, b.close,
      (body.build opening ts).trailing⟩]
      (b.closeLeading.signs ++ signsOf ((ts.drop body.inner).take body.closing))
      (if ends then .fresh else g') c'

theorem Body.shuts_braced (positive : 0 < body.closing) (h : Ahead tail c g (ts.drop body.inner))
    (ends : body.Ends scope (ts.map (·.toLexeme))) (endsLine : Bool) (opening : Span) :
    ∃ c' g', body.Shuts roots endsLine opening ts c g c' g' ∧
      Ahead tail c' g' (ts.drop body.count) := by
  rw [← List.take_append_drop body.closing (ts.drop body.inner)] at h
  obtain ⟨m, c', g', own, ahead⟩ := h.step (closes_of_closed (ends.shut positive).closed)
  obtain ⟨leading, text, trailing⟩ := body.build_close opening ts
  rw [List.drop_drop, ← Body.count_eq] at ahead
  refine ⟨c', g', ⟨⟨own.active, ⟨false, m, ?_⟩, .inr ?_⟩, ?_, ?_, ?_⟩, ahead⟩
  · rw [leading]
    exact own.leading
  · rw [leading]
    exact own.fits
  · rw [leading]
    exact own.leading.through.append own.through
  · rw [trailing]
    exact own.undirected
  · rintro o b rfl last meets
    obtain ⟨-, -, stripped, close⟩ :=
      mapBlocks_arrange_frame roots (body.build opening ts).block
    have fits := meets.resolve_left fun loose =>
      Gap.not_fits_loose _ (last loose ▸ own.fits)
    rw [close, stripped] at *
    have flow := flow_stripUnless own.leading (body.build opening ts).block.membersGuarded
    rw [← leading] at flow
    let p : Part := ⟨((body.build opening ts).block.mapBlocks (Block.arrange roots)).closingSpacing,
      endsLine, none, Span.stripUnless (body.build opening ts).block.membersGuarded
        (body.build opening ts).block.closeLeading, (body.build opening ts).block.close,
      (body.build opening ts).trailing⟩
    have runs : p.Runs c m c' _ := own.runs text trailing flow fun w asked => by cases asked
    have leaves : p.Leaves c' (if endsLine then .fresh else g') := own.leaves trailing
    have chain := Chain.cons runs (.inr fits) leaves (.nil _ _)
    simpa using chain

theorem Body.shuts_unbraced (unbraced : body.braced = false) (unclosed : body.closing = 0)
    (h : Ahead tail c g (ts.drop body.inner)) (opening : Span) :
    body.Shuts roots true opening ts c g c g ∧ Ahead tail c g (ts.drop body.count) := by
  obtain ⟨leading, text, trailing⟩ := SourceFile.build_unclosed unclosed opening ts
  refine ⟨⟨⟨h.active, ⟨false, c, ?_⟩, ?_⟩, ?_, ?_, ?_⟩, ?_⟩
  · rw [leading]
    exact .nil _ _
  · rw [leading]
    cases g with
    | fresh => exact .inr (.inl rfl)
    | tight => exact .inr (.inr ⟨rfl, by simp [Inert]⟩)
    | loose => exact .inl rfl
  · rw [leading, unclosed]
    exact .nil c
  · rw [trailing]
    rfl
  · rintro o b rfl - -
    obtain ⟨braced, -, stripped, close⟩ :=
      mapBlocks_arrange_frame roots (body.build opening ts).block
    have empty : ∀ pinned, Span.stripUnless pinned [] = [] := fun pinned => by
      cases pinned <;> rfl
    rw [leading, empty] at stripped
    rw [Body.build_braced, unbraced] at braced
    rw [stripped, close, text, trailing, Block.closingSpacing, braced, unclosed]
    exact .hollow (.nil _ _)
  · rw [Body.count_eq, unclosed, Nat.add_zero]
    exact h

theorem Entry.settled_with_body (h : Entry.settled roots { header with body := some b } ts) :
    (b.build (trailingOf (ts.take header.size)) (ts.drop header.size)).block.settled roots
        (b.insides (ts.drop header.size)) ∧ b.settledInside roots (ts.drop header.size) := by
  cases header
  simpa only [Entry.settled, Body.settledOption, Bool.and_eq_true] using h

theorem Body.Respelt.steps {imports attributes items : List CSharpTidy.Item}
    (h : b.Respelt roots (innerScope header.kind) (ts.drop header.size) imports attributes items)
    (ends : Entry.Ends .member scope { header with body := some b } (ts.map (·.toLexeme)))
    (ending : if b.braced then 0 < b.closing ∧ b.members.all Entry.isClosed else b.closing = 0)
    (regular : Regular ts)
    (lone : Entry.lone scope { header with body := some b } (ts.map (·.toLexeme)))
    (pinned stays : Bool) : let closing := ((ts.drop header.size).drop b.inner).take b.closing
    Steps .member scope b.braced
      { header with body := some (Item.body b.braced
          (Item.sorted pinned stays (Decl.importLE roots) imports)
          (attributes.map (Item.strip pinned)) (Item.sorted pinned pinned Decl.memberLE items)
          closing.length) }
      ((ts.take header.size).map (·.toLexeme) ++
        (Block.Rows.order roots pinned stays imports attributes items).flatMap Item.lexemes ++
        closing.map (·.toLexeme)) := by
  intro closing
  obtain ⟨opens, inside⟩ := Entry.reads_opening ends (List.forall_mem_map.mpr regular) lone
  rw [← List.map_take] at opens
  rw [← List.map_drop] at inside
  have rows := (h.rows (fun t mem => regular t (List.mem_of_mem_drop mem)) inside).sorted roots
    pinned stays
  have bodyEnds := ((Entry.ends_with_body ..).mp ends).2.2
  have steps := rows.container opens (closing.map (·.toLexeme)) ?_ ?_ ?_
  · rwa [List.length_map] at steps
  · intro last
    by_contra braced
    simp_all
  · intro braced
    rw [braced, if_pos rfl] at ending
    rw [← List.map_drop] at bodyEnds
    exact bodyEnds.shut ending.1
  · intro unbraced
    simp_all [closing]

theorem Entry.met_with_body (preamble : ∀ e ∈ b.imports ++ b.attributes, e.Plain)
    (members : ∀ e ∈ b.members, e.Met roots tail)
    (ending : if b.braced then 0 < b.closing ∧ b.members.all Entry.isClosed else b.closing = 0)
    (shuts : ∀ {c : Conditional} {g : Gap} {ts : List PlacedToken},
      Ahead tail c g (ts.drop b.inner) → ∀ {scope}, b.Ends scope (ts.map (·.toLexeme)) → ∀ opening,
      ∃ c' g', b.Shuts roots header.kind.endsLine opening ts c g c' g' ∧
        Ahead tail c' g' (ts.drop b.count)) :
    Entry.Met roots tail { header with body := some b } := by
  intro c g ts h enough role scope ends settled
  rw [Entry.count_with_body, Body.count_eq] at enough
  obtain ⟨opens, cut, bodyEnds⟩ := (Entry.ends_with_body ..).mp ends
  rw [← List.map_take] at opens
  rw [← List.map_drop] at bodyEnds
  obtain ⟨settledBlock, settledInside⟩ := Entry.settled_with_body settled
  have inside := Entry.inside_with_body header b ts
  have built := Entry.build_container header b ts
  -- The tokens of the opening, those of the body, and those that close it.
  rw [← List.take_append_drop header.size ts] at h
  obtain ⟨m, c₁, g₁, own, ahead⟩ := h.step (closes_of_closed opens)
  obtain ⟨imports, attributes, items, c₂, g₂, met, behind, respelt⟩ :=
    Body.met preamble members ahead (by rw [List.length_drop]; omega) bodyEnds settledInside
      (trailingOf (ts.take header.size))
  obtain ⟨c₃, g₃, shut, rest⟩ :=
    shuts behind bodyEnds (trailingOf (ts.take header.size))
  have openTrailing :=
    SourceFile.build_openTrailing b (trailingOf (ts.take header.size)) (ts.drop header.size)
  let inner := (b.build (trailingOf (ts.take header.size)) (ts.drop header.size)).block
  let arranged := inner.mapBlocks (Block.arrange roots)
  obtain ⟨-, openStripped, closeStripped, -⟩ := mapBlocks_arrange_frame roots inner
  rw [openTrailing, stripUnless_of_unmarked own.unmarked] at openStripped
  have within : (if arranged.opensLine then Gap.fresh else g₁).Within g₁ := by
    split
    · exact .inl rfl
    · exact .inr rfl
  obtain ⟨o, content, loose, meets, replaces⟩ := met.arrange shut.closing settledBlock within
  obtain ⟨sorted, sameImports, sameAttributes, sameMembers⟩ := met.arranged
  let closing := ((ts.drop header.size).drop b.inner).take b.closing
  -- With its body arranged, the container is one item that can be moved as a whole.
  let i : CSharpTidy.Item :=
    { decl :=
        { kind := header.kind, visibility := header.visibility, key := header.key,
          leading := leadingOf (ts.take header.size), text := join (ts.take header.size),
          block := some arranged,
          trailing := (b.build (trailingOf (ts.take header.size)) (ts.drop header.size)).trailing,
          lineIndent := (ts.take header.size).head?.bind PlacedToken.lineIndent }
      entry :=
        { header with body := some (Item.body b.braced
            (Item.sorted inner.membersGuarded inner.importsGuarded (Decl.importLE roots) imports)
            (attributes.map (Item.strip inner.membersGuarded))
            (Item.sorted inner.membersGuarded inner.membersGuarded Decl.memberLE items)
            closing.length) }
      front := c
      mid := m
      back := c₃
      inside := Entry.inside { header with body := some b } ts
      own := ledOf (ts.take header.size) ++
        ((Block.Rows.order roots inner.membersGuarded inner.importsGuarded imports attributes
          items).flatMap Item.leds ++ Led.lead arranged.closeLeading.directives (ledOf closing))
      gap := g₃ }
  have told := Item.Told.order respelt.told inner.membersGuarded inner.importsGuarded
  have undirected : closing = [] → arranged.closeLeading.directives = [] := fun none => by
    rw [closeStripped, (b.build_close _ _).1]
    change (Span.stripUnless _ (leadingOf closing)).directives = []
    rw [none]
    cases inner.membersGuarded <;> rfl
  have out : i.out = signsOf (ts.take header.size) ++ _ ++ (arranged.closeLeading.signs ++
      signsOf closing) := Item.out_of_body told undirected
  have moves : i.Moves := Item.moves_of_body rfl own rfl openStripped
    (fun w found => (own.indent w found).2) content (shut.chain rfl loose meets) out
  have sound : i.Sound := by
    refine ⟨own.active, own.leading, own.indent,
      unmarked_of_undirected shut.undirected, ?_, ?_⟩
    · simp only [i, inside, Block.markers, List.map_append, Marker.map_kind_fixed, map_kind_markers,
        b.insides_close]
      exact own.through.append (met.through.append shut.through)
    · rw [out]
      simp only [i, inside, Block.markers, Marker.left_append, Marker.left_fixed, left_markers,
        b.insides_close, arranged, closeStripped, List.append_assoc, Sign.directives_append,
        directives_signsOf, directives_signs, Item.directives_flatMap]
      exact (Replaces.refl _).append (replaces.append (Replaces.refl _))
  refine ⟨i, ?_, rfl, rfl, own.fits, sound, moves, fun none => ?_, Item.Tells.body
    ⟨told, sorted, sameImports, sameAttributes, sameMembers⟩ rfl rfl
    (ne_nil_of_closes (closes_of_closed opens)) (by rw [List.length_take]; omega) rfl rfl rfl
    shut.undirected undirected, ?_, ?_⟩
  · rw [built, Decl.mapBlocks_eq]
    rfl
  · cases none
  · intro regular stands
    cases role with
    | member =>
      have steps := respelt.steps ends ending regular stands inner.membersGuarded
        inner.importsGuarded
      rw [Item.lexemes, ← Led.lexemes_signs, ← Item.out, out]
      rw [Sign.lexemes_append, Sign.lexemes_append, Sign.lexemes_append, lexemes_signsOf,
        lexemes_signsOf, Span.lexemes_signs, Item.lexemes_flatMap]
      exact steps
    | _ => cases stands
  · rw [Entry.count_with_body, ← List.drop_drop]
    exact rest

theorem Entry.Closed.isClosed (h : e.Closed) : e.isClosed := by
  cases h with
  | plain plain => exact isClosed_of_unbodied plain.body
  | container _ braced => exact braced

theorem Entry.Closed.met (h : e.Closed) : e.Met roots tail := by
  induction h with
  | plain plain => exact plain.met
  | @container header b size braced closing preamble members ih =>
    exact Entry.met_with_body preamble ih (by simp_all [Entry.Closed.isClosed])
      fun ahead _ ends opening => Body.shuts_braced closing ahead ends _ opening

theorem Body.Open.preamble (h : b.Open) : ∀ e ∈ b.imports ++ b.attributes, e.Plain := by
  cases h <;> assumption

theorem Body.Open.met (h : body.Open) : ∀ e ∈ body.members, e.Met roots tail := by
  induction h with
  | last _ _ _ members _ => exact fun e mem => (members e mem).met
  | @fileScoped b inner before header _ _ _ closed opens members rest _ ih =>
    rw [members, List.forall_mem_append, List.forall_mem_singleton]
    refine ⟨fun e mem => (closed e mem).met, Entry.met_with_body rest.preamble ih
      (by simp [rest.unbraced, rest.unclosed]) ?_⟩
    intro c g ts ahead _ _ opening
    obtain ⟨kind, container⟩ := opens.kind
    obtain ⟨shut, behind⟩ := Body.shuts_unbraced rest.unbraced rest.unclosed ahead opening
    rw [container]
    exact ⟨_, _, shut, behind⟩

end Outline

end CSharpTidy
