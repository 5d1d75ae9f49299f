import CSharpTidy.Proofs.SeenDecls

/- The declarations of a source as a second reader meets them. It sees the tokens of each one behind
   the other, and whatever it is shown of a body that is arranged it would be shown of the body as
   it stands. -/
namespace CSharpTidy

open CSharpTidy.Span CSharpTidy.Part PlacedToken

/-- Tokens that the first reader has cut, as far as a second one asks for them. -/
structure Held (ts : List PlacedToken) : Prop where
  traced : ∀ own, own <:+: ts → ∃ r r' s s', Trace r (stretch own) s r' s'
  unhashed : ∀ t ∈ ts, t.text.toList.head? ≠ some '#'
  inert : ∀ t ∈ ts, t.trailing.Inert
  unmarked : ∀ t ∈ ts, '\ufeff' ∉ t.toToken.atoms.flatMap Atom.text
  calm : ∀ t ∈ ts.tail, ∀ u ∈ t.leading, u.isCalm

namespace Held

variable {ts own : List PlacedToken} {d d' : Conditional} {ls : List Lexeme}

theorem of_infix (h : Held ts) (inside : own <:+: ts) : Held own := by
  refine ⟨fun part within => h.traced part (within.trans inside),
    fun t mem => h.unhashed t (inside.subset mem), fun t mem => h.inert t (inside.subset mem),
    fun t mem => h.unmarked t (inside.subset mem), fun t mem => h.calm t ?_⟩
  obtain ⟨front, back, rfl⟩ := inside
  cases own with
  | nil => cases mem
  | cons first own => cases front <;> simp_all

theorem drop (h : Held ts) (n : Nat) : Held (ts.drop n) :=
  h.of_infix (List.drop_suffix n ts).isInfix

theorem take (h : Held ts) (n : Nat) : Held (ts.take n) :=
  h.of_infix (List.take_prefix n ts).isInfix

theorem undirected (h : Held ts) : ∀ t ∈ ts, t.trailing.directives = [] :=
  fun t mem => (h.inert t mem).undirected

theorem unmarked_join (h : Held own) : '\ufeff' ∉ (join own).toList := by
  by_cases nonempty : own = []
  · simp [nonempty, join]
  · intro mem
    rw [← text_stretch] at mem
    have whole : '\ufeff' ∈ (own.flatMap fun t => t.toToken.atoms).flatMap Atom.text := by
      rw [atoms_eq nonempty, List.flatMap_append, List.flatMap_append]
      simp [mem]
    obtain ⟨a, inside, found⟩ := List.mem_flatMap.mp whole
    obtain ⟨t, token, atom⟩ := List.mem_flatMap.mp inside
    exact h.unmarked t token (List.mem_flatMap.mpr ⟨a, atom, found⟩)

theorem inert_trailingOf (h : Held own) : (trailingOf own).Inert := by
  rw [trailingOf]
  split
  · rename_i t last
    exact h.inert t (List.mem_of_getLast? last)
  · simp [Inert]

theorem calm_atoms (h : Held ts) {part : List PlacedToken} (inside : ∀ t ∈ part, t ∈ ts.tail) :
    ∀ a ∈ part.flatMap (fun t => t.toToken.atoms), a.isCalm := by
  intro a mem
  obtain ⟨t, token, atom⟩ := List.mem_flatMap.mp mem
  simp only [Token.atoms, List.mem_append, List.mem_map, List.mem_cons] at atom
  obtain ⟨u, leading, rfl⟩ | rfl | ⟨u, trailing, rfl⟩ := atom
  · exact h.calm t (inside t token) u leading
  · rfl
  · have kind := (h.inert t (List.mem_of_mem_tail (inside t token)) u trailing).2
    simp [Atom.isCalm, Trivia.isCalm, kind]

theorem calm_stretch (h : Held own) : ∀ a ∈ stretch own, a.isCalm := by
  cases own with
  | nil => simp [stretch]
  | cons first more =>
    have later : ∀ a ∈ more.flatMap (fun t => t.toToken.atoms), a.isCalm :=
      h.calm_atoms fun t mem => mem
    cases more with
    | nil => simp [stretch, Atom.isCalm]
    | cons next more =>
      rw [atoms_eq (List.cons_ne_nil next more)] at later
      simp only [List.forall_mem_append] at later
      rw [stretch, List.forall_mem_cons]
      refine ⟨rfl, ?_⟩
      simp only [List.forall_mem_append, List.forall_mem_map]
      refine ⟨⟨fun u mem => ?_, ?_⟩, later.1.2⟩
      · have kind := (h.inert first (by simp) u mem).2
        simp [Atom.isCalm, Trivia.isCalm, kind]
      · simpa [leadingOf] using later.1.1

theorem shown (h : Held own) (closes : Closes own)
    (sees : Sees Atom.lexeme? d (own.flatMap fun t => t.toToken.atoms) ls d') :
    ∃ m before inner, ls = before ++ inner ∧
      Sees Atom.lexeme? d ((leadingOf own).map .trivia) before m ∧
      Passes Atom.lexeme? m (join own).toList inner d' ∧
      Sees Atom.lexeme? d' ((trailingOf own).map .trivia) [] d' ∧ m.Through (between own) d' := by
  have nonempty : own ≠ [] := by
    rintro rfl
    obtain ⟨t, z, last, -⟩ := closes
    cases last
  rw [atoms_eq nonempty] at sees
  obtain ⟨d₁, ls', ls₃, rfl, front, trailing⟩ := sees.split
  obtain ⟨m, before, inner, rfl, leading, stretched⟩ := front.split
  obtain ⟨rfl, rfl⟩ := trailing.of_inert h.inert_trailingOf
  obtain ⟨r, r', s, s', traced⟩ := h.traced own List.infix_rfl
  have unhashed : Unhashed own := fun t head => h.unhashed t (List.mem_of_mem_head? head)
  exact ⟨m, before, inner, List.append_nil _, leading,
    stretch_watched traced closes unhashed stretched h.unmarked_join, trailing,
    stretched.through h.calm_stretch⟩

end Held

theorem Decl.ShownAll.length {d d' : Conditional} {as : List Decl} {insides : List (List Marker)}
    {ls : List Lexeme} (h : Decl.ShownAll d as insides ls d') : insides.length = as.length := by
  induction h with
  | nil => rfl
  | cons _ _ ih => simp [ih]

theorem ne_empty_of_closes {own : List PlacedToken} (closes : Closes own) : join own ≠ "" := by
  obtain ⟨front, a, text, -⟩ := Ahead.solid_join closes
  intro empty
  simp [empty] at text

namespace Outline

/-- Wherever a second reader sees the tokens of the declaration, it is shown the declaration with
its bodies arranged. -/
def Entry.Watched (roots : List String) (f : Block Decl → Block Decl)
    (R : List Lexeme → List Lexeme → Prop) (e : Entry) : Prop :=
  ∀ {d d' : Conditional} {ls : List Lexeme} {ts : List PlacedToken}, Held ts →
    e.count ≤ ts.length → ∀ {role scope}, e.Ends role scope (ts.map (·.toLexeme)) →
    e.settled roots ts →
    Sees Atom.lexeme? d ((ts.take e.count).flatMap fun t => t.toToken.atoms) ls d' →
    ∃ m before own own', ls = before ++ own ∧ R own' own ∧
      ((e.build ts).1.mapBlocks f).Shown d m d' before own' ((e.inside ts).map Marker.kind)

variable {roots : List String} {f : Block Decl → Block Decl} {R : List Lexeme → List Lexeme → Prop}
  {ts : List PlacedToken} {d d' : Conditional} {ls : List Lexeme} {role : Role} {scope : Scope}
  {body : Body Entry} {es : List Entry} {e : Entry}

theorem Entry.Plain.watched (follows : Follows roots f R) (plain : e.Plain) :
    e.Watched roots f R := by
  intro d d' ls ts held enough role scope ends settled sees
  have closes := ends_opening ends
  have inside : e.inside ts = Marker.fixed (between (ts.take e.size)) := by
    obtain ⟨kind, visibility, key, size, body⟩ := e
    cases plain.body
    simp [Entry.inside, Body.insideOption]
  rw [Entry.count_of_no_body plain.body] at sees
  obtain ⟨m, before, inner, rfl, leading, text, trailing, through⟩ :=
    (held.take e.size).shown closes sees
  have unmarked := unmarked_of_undirected (held.take e.size).inert_trailingOf.undirected
  refine ⟨m, before, inner, inner, rfl, follows.refl inner, ?_⟩
  rw [inside, Marker.map_kind_fixed, Entry.build_plain plain.body, Decl.mapBlocks_eq]
  refine ⟨leading, ?_, ne_empty_of_closes closes, through, unmarked⟩
  have shows := ShowsAll.cons (p := ⟨e.kind.spacing, e.kind.endsLine, none, [],
    join (ts.take e.size), trailingOf (ts.take e.size)⟩)
    ⟨.nil m, text, ne_empty_of_closes closes, trailing⟩ (.nil d')
  simpa [Decl.pieces, Decl.withLeading, Decl.memberParts, Block.partsOption] using shows

theorem watched_all (follows : Follows roots f R) (watched : ∀ e ∈ es, e.Watched roots f R)
    (held : Held ts) (enough : Entry.countAll es ≤ ts.length)
    (ends : Entry.EndsAll role scope es (ts.map (·.toLexeme)))
    (settled : Entry.settledAll roots es ts) (sees : Sees Atom.lexeme? d
      ((ts.take (Entry.countAll es)).flatMap fun t => t.toToken.atoms) ls d') :
    ∃ ls', R ls' ls ∧ Decl.ShownAll d ((Entry.buildAll es ts).1.map (Decl.mapBlocks f))
      (Entry.insideAll es ts) ls' d' := by
  induction es generalizing d ls ts with
  | nil =>
    rw [Entry.countAll, List.take_zero] at sees
    cases sees
    exact ⟨[], follows.refl [], .nil _⟩
  | cons e es ih =>
    rw [List.forall_mem_cons] at watched
    simp only [Entry.countAll, Entry.EndsAll, Entry.settledAll,
      Bool.and_eq_true] at enough ends settled
    rw [Entry.countAll, List.take_add, List.flatMap_append] at sees
    obtain ⟨d₁, ls₁, ls₂, rfl, front, back⟩ := sees.split
    obtain ⟨m, before, own, own', rfl, same, first⟩ :=
      watched.1 held (by omega) ends.1 settled.1 front
    obtain ⟨ls', same', rest⟩ := ih watched.2 (held.drop e.count)
      (by rw [List.length_drop]; omega) (by rw [List.map_drop]; exact ends.2) settled.2 back
    refine ⟨before ++ own' ++ ls', ?_, ?_⟩
    · exact follows.append (follows.append (follows.refl before) same) same'
    · rw [Entry.buildAll, Entry.insideAll, Entry.build_rest]
      exact .cons first rest

theorem buildAll_unbodied (plain : ∀ e ∈ es, e.Plain) (ts : List PlacedToken) :
    ∀ a ∈ (Entry.buildAll es ts).1, a.block = none := by
  induction es generalizing ts with
  | nil => simp [Entry.buildAll]
  | cons e es ih =>
    rw [List.forall_mem_cons] at plain
    rw [Entry.buildAll, List.forall_mem_cons, Entry.build_plain plain.1.body]
    exact ⟨rfl, ih plain.2 _⟩

theorem buildAll_leading (es : List Entry) (ts : List PlacedToken) :
    ∀ a ∈ (Entry.buildAll es ts).1, ∀ u ∈ a.leading, ∃ t ∈ ts, u ∈ t.leading := by
  induction es generalizing ts with
  | nil => simp [Entry.buildAll]
  | cons e es ih =>
    rw [Entry.buildAll, List.forall_mem_cons]
    refine ⟨fun u mem => ?_, fun a mem u inside => ?_⟩
    · rw [Entry.build_leading, leadingOf] at mem
      split at mem
      · rename_i t front
        exact ⟨t, List.mem_of_mem_take (List.mem_of_mem_head? front), mem⟩
      · cases mem
    · rw [Entry.build_rest] at mem
      obtain ⟨t, token, found⟩ := ih _ a mem u inside
      exact ⟨t, List.mem_of_mem_drop token, found⟩

theorem Body.build_calm (body : Body Entry) (opening : Span)
    (calm : ∀ t ∈ ts, ∀ u ∈ t.leading, u.isCalm) : (body.build opening ts).block.Calm := by
  have each : ∀ es n, ∀ a ∈ (Entry.buildAll es (ts.drop n)).1, ∀ u ∈ a.leading, u.isCalm := by
    intro es n a mem u inside
    obtain ⟨t, token, found⟩ := buildAll_leading es _ a mem u inside
    exact calm t (List.mem_of_mem_drop token) u found
  obtain ⟨braced, imports, attributes, members, closing⟩ := body
  simp only [Body.build, Entry.buildAll_rest, List.drop_drop]
  exact ⟨fun _ => each imports 0, fun _ => each members _⟩

theorem Body.watched (follows : Follows roots f R)
    (preamble : ∀ e ∈ body.imports ++ body.attributes, e.Plain)
    (members : ∀ e ∈ body.members, e.Watched roots f R) (held : Held ts)
    (enough : body.inner ≤ ts.length) (ends : body.Ends scope (ts.map (·.toLexeme)))
    (settled : body.settledInside roots ts) (opening : Span)
    (sees : Sees Atom.lexeme? d ((ts.take body.inner).flatMap fun t => t.toToken.atoms) ls d') :
    ∃ ls', R ls' ls ∧ (body.build opening ts).block.Shown f (body.insides ts) d ls' d' := by
  obtain ⟨braced, importEntries, attributeEntries, memberEntries, closing⟩ := body
  rw [List.forall_mem_append] at preamble
  simp only [Body.inner] at enough preamble members sees
  simp only [Body.Ends, Body.settledInside] at ends settled
  rw [List.take_add, List.take_add, List.flatMap_append, List.flatMap_append] at sees
  obtain ⟨d₂, ls', ls₃, rfl, front, inMembers⟩ := sees.split
  obtain ⟨d₁, ls₁, ls₂, rfl, inImports, inAttributes⟩ := front.split
  obtain ⟨ls₁', sameImports, imports⟩ := watched_all follows
    (fun e mem => (preamble.1 e mem).watched follows) held (by omega) ends.1
    (settledAll_of_plain roots preamble.1 ts) inImports
  obtain ⟨ls₂', sameAttributes, attributes⟩ := watched_all follows
    (fun e mem => (preamble.2 e mem).watched follows) (held.drop _)
    (by rw [List.length_drop]; omega) (by rw [List.map_drop]; exact ends.2.1)
    (settledAll_of_plain roots preamble.2 _) inAttributes
  rw [← List.drop_drop] at inMembers
  obtain ⟨ls₃', sameMembers, shownMembers⟩ := watched_all follows members ((held.drop _).drop _)
    (by simp only [List.length_drop]; omega)
    (by rw [List.map_drop, List.map_drop, List.drop_drop]; exact ends.2.2.1) settled inMembers
  refine ⟨ls₁' ++ ls₂' ++ ls₃', follows.append (follows.append sameImports sameAttributes)
    sameMembers, ?_, ?_, ?_, ?_⟩
  · have whole := (imports.append attributes).append shownMembers
    simpa only [Body.build, Body.insides, Block.decls, Entry.buildAll_rest, List.map_append,
      List.append_assoc] using whole
  · simp only [Body.build, Entry.buildAll_rest, List.forall_mem_append]
    exact ⟨buildAll_unbodied preamble.1 ts, buildAll_unbodied preamble.2 _⟩
  · simpa only [Body.build, Body.insides, List.length_map] using imports.length
  · simpa only [Body.build, Body.insides, Entry.buildAll_rest, List.length_map] using
      attributes.length

theorem mapBlocks_frame (follows : Follows roots f R) (b : Block Decl) :
    ∃ pinned, (b.mapBlocks f).braced = b.braced ∧
      (b.mapBlocks f).openTrailing = Span.stripUnless pinned b.openTrailing ∧
      (b.mapBlocks f).closeLeading = Span.stripUnless pinned b.closeLeading ∧
      (b.mapBlocks f).close = b.close := by
  rw [Block.mapBlocks_eq]
  exact follows.frame _

theorem Body.watched_end (follows : Follows roots f R) (held : Held ts)
    (ends : body.Ends scope (ts.map (·.toLexeme))) (opening : Span) (whole : Part)
    (trailing : whole.trailing = (body.build opening ts).trailing) (sees : Sees Atom.lexeme? d
      (((ts.drop body.inner).take body.closing).flatMap fun t => t.toToken.atoms) ls d') :
    ShowsAll Atom.lexeme? d
        [((body.build opening ts).block.mapBlocks f).closingPart whole] ls d' ∧
      (body.build opening ts).trailing.Unmarked := by
  obtain ⟨pinned, -, -, closeLeading, close⟩ :=
    mapBlocks_frame follows (body.build opening ts).block
  obtain unclosed | positive := Nat.eq_zero_or_pos body.closing
  · obtain ⟨leading, text, behind⟩ := SourceFile.build_unclosed unclosed opening ts
    rw [unclosed, List.take_zero] at sees
    cases sees
    refine ⟨.hollow ?_ (.nil _), by simp [behind, Span.Unmarked]⟩
    have none : ∀ pinned, Span.stripUnless pinned [] = [] := fun pinned => by cases pinned <;> rfl
    rw [frame, Block.closingPart, closeLeading, leading, none, close, text, trailing, behind]
  · have closes := closes_of_closed (ends.shut positive).closed
    obtain ⟨leading, text, behind⟩ := body.build_close opening ts
    have own := (held.drop body.inner).take body.closing
    obtain ⟨m, before, inner, rfl, sees, passes, trails, -⟩ := own.shown closes sees
    have solid : join ((ts.drop body.inner).take body.closing) ≠ "" := ne_empty_of_closes closes
    refine ⟨?_, behind ▸ unmarked_of_undirected own.inert_trailingOf.undirected⟩
    rw [← List.append_nil (before ++ inner)]
    refine .cons (n := m) ⟨?_, ?_, ?_, ?_⟩ (.nil d')
    · rw [Block.closingPart, closeLeading, leading]
      exact sees.stripUnless pinned
    · rw [Block.closingPart, close, text]
      exact passes
    · rw [Block.closingPart, close, text]
      exact solid
    · rw [Block.closingPart, trailing, behind]
      exact trails

theorem Entry.watched_with_body (follows : Follows roots f R) {header : Entry} {b : Body Entry}
    (preamble : ∀ e ∈ b.imports ++ b.attributes, e.Plain)
    (members : ∀ e ∈ b.members, e.Watched roots f R) :
    Entry.Watched roots f R { header with body := some b } := by
  intro d d' ls ts held enough role scope ends settled sees
  rw [Entry.count_with_body] at enough sees
  obtain ⟨opens, -, bodyEnds⟩ := (Entry.ends_with_body ..).mp ends
  rw [← List.map_take] at opens
  rw [← List.map_drop] at bodyEnds
  have closes := closes_of_closed opens
  obtain ⟨settledBlock, settledInside⟩ := Entry.settled_with_body settled
  have counted := b.count_eq
  rw [List.take_add, List.flatMap_append] at sees
  obtain ⟨d₁, ls₁, ls₂, rfl, opening, behind⟩ := sees.split
  obtain ⟨m, before, inner, rfl, leading, text, trailing, through⟩ :=
    (held.take header.size).shown closes opening
  have inBody := behind
  rw [counted, List.take_add, List.flatMap_append] at inBody
  obtain ⟨d₂, ls₃, ls₄, rfl, content, close⟩ := inBody.split
  obtain ⟨ls₃', same, shown⟩ := Body.watched follows preamble members (held.drop header.size)
    (by rw [List.length_drop]; omega) bodyEnds settledInside (trailingOf (ts.take header.size))
    content
  have later : ∀ t ∈ ts.drop header.size, t ∈ ts.tail := by
    have positive : header.size ≠ 0 := by
      intro zero
      obtain ⟨t, z, last, -⟩ := closes
      simp [zero] at last
    intro t mem
    rw [← Nat.succ_pred_eq_of_ne_zero positive, Nat.succ_eq_one_add, ← List.drop_drop,
      List.drop_one] at mem
    exact List.mem_of_mem_drop mem
  obtain ⟨ls₃'', same', showsBody⟩ := follows.parts settledBlock
    (Body.build_calm b _ fun t mem => held.calm t (later t mem)) shown
  let inner' := (b.build (trailingOf (ts.take header.size)) (ts.drop header.size)).block
  let whole : Part := ⟨header.kind.spacing, header.kind.endsLine, none, [],
    join (ts.take header.size),
    (b.build (trailingOf (ts.take header.size)) (ts.drop header.size)).trailing⟩
  obtain ⟨showsEnd, unmarked⟩ := Body.watched_end follows (held.drop header.size) bodyEnds
    (trailingOf (ts.take header.size)) whole rfl close
  obtain ⟨pinned, -, openTrailing, -⟩ := mapBlocks_frame follows inner'
  rw [SourceFile.build_openTrailing, stripUnless_of_unmarked (unmarked_of_undirected
    (held.take header.size).inert_trailingOf.undirected)] at openTrailing
  have showsOpening : ((inner'.mapBlocks f).openingPart whole).Shows Atom.lexeme? m m d₁ []
      inner := by
    refine ⟨.nil m, text, ne_empty_of_closes closes, ?_⟩
    rw [Block.openingPart, openTrailing]
    exact trailing
  have body := behind.through (held.calm_atoms fun t mem => later t (List.mem_of_mem_take mem))
  have kinds := Body.markers_kinds (held.drop header.size).undirected
    (Body.declMarkers_kinds b (trailingOf (ts.take header.size)) _
      (held.drop header.size).undirected)
  refine ⟨m, before, inner ++ (ls₃ ++ ls₄), inner ++ (ls₃'' ++ ls₄), by simp, ?_, ?_⟩
  · exact follows.append (follows.refl inner)
      (follows.append (follows.trans same' same) (follows.refl ls₄))
  · rw [Entry.build_container, Decl.mapBlocks_eq, Entry.inside_with_body, List.map_append,
      Marker.map_kind_fixed, kinds]
    refine ⟨leading, ?_, ne_empty_of_closes closes, through.append body, unmarked⟩
    exact .cons showsOpening (showsBody.append showsEnd)

theorem Entry.Closed.watched (follows : Follows roots f R) (h : e.Closed) :
    e.Watched roots f R := by
  induction h with
  | plain plain => exact plain.watched follows
  | container _ _ _ preamble _ ih => exact Entry.watched_with_body follows preamble ih

theorem Body.Open.watched (follows : Follows roots f R) (h : body.Open) :
    ∀ e ∈ body.members, e.Watched roots f R := by
  induction h with
  | last _ _ _ members _ => exact fun e mem => (members e mem).watched follows
  | fileScoped _ _ _ closed _ members rest _ ih =>
    rw [members, List.forall_mem_append, List.forall_mem_singleton]
    exact ⟨fun e mem => (closed e mem).watched follows,
      Entry.watched_with_body follows rest.preamble ih⟩

end Outline

end CSharpTidy
