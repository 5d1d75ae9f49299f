import CSharpTidy.Proofs.HeaderEnds
import CSharpTidy.Proofs.LexedSpans
import CSharpTidy.Proofs.OutlineShape
import CSharpTidy.Proofs.Parts

/- The parts of a tree that was read from a text. Each part is made of tokens that follow each
   other, and the parts take all tokens in order; only the ends of namespaces without braces take
   none. -/
namespace CSharpTidy

open PlacedToken Outline SourceFile

structure Part.Takes (p : Part) (own : List PlacedToken) : Prop where
  nonempty : own ≠ []
  leading : p.leading = leadingOf own
  text : p.text = join own
  trailing : p.trailing = trailingOf own
  indent : ∀ w, p.indent = some w → own.head?.bind PlacedToken.lineIndent = some w

inductive Part.Cover : List Part → List PlacedToken → Prop
  | nil : Cover [] []
  | cons {p : Part} {ps : List Part} {own ts : List PlacedToken} (first : p.Takes own)
      (rest : Cover ps ts) : Cover (p :: ps) (own ++ ts)

variable {ts own : List PlacedToken} {ps : List Part} {b : Body Entry} {file : SourceFile}
  {stream : TokenStream} {tail span : Span} {p : Part}

namespace Part.Cover

theorem append {qs : List Part} {us : List PlacedToken} (first : Cover ps ts)
    (second : Cover qs us) :
    Cover (ps ++ qs) (ts ++ us) := by
  induction first with
  | nil => exact second
  | cons head _ ih =>
    rw [List.cons_append, List.append_assoc]
    exact .cons head ih

theorem single (h : p.Takes own) : Cover [p] own := by
  simpa using Cover.cons h .nil

end Part.Cover

namespace Outline

variable {e : Entry}

theorem Entry.build_plain (h : e.body = none) (ts : List PlacedToken) : e.build ts =
      ({ kind := e.kind, visibility := e.visibility, key := e.key,
         leading := leadingOf (ts.take e.size), text := join (ts.take e.size),
         trailing := trailingOf (ts.take e.size),
         lineIndent := (ts.take e.size).head?.bind PlacedToken.lineIndent }, ts.drop e.size) := by
  obtain ⟨kind, visibility, key, size, body⟩ := e
  cases h
  rfl

theorem take_ne_nil {n : Nat} (positive : 0 < n) (enough : n ≤ ts.length) : ts.take n ≠ [] := by
  intro empty
  have := congrArg List.length empty
  rw [List.length_take, List.length_nil] at this
  omega

theorem Entry.Plain.takes (h : e.Plain) (enough : e.size ≤ ts.length) (spacing : Spacing)
    (ends lineStart : Bool) :
    ((e.build ts).1.part spacing ends lineStart).Takes (ts.take e.size) := by
  rw [Entry.build_plain h.body]
  refine ⟨take_ne_nil h.size enough, rfl, ?_, rfl, fun w => ?_⟩
  · simp [Decl.part, Block.printOption]
  · cases lineStart <;> simp [Decl.part]

theorem cover_of_plain {es : List Entry} (plain : ∀ e ∈ es, e.Plain)
    (enough : Entry.countAll es ≤ ts.length)
    (parts : List.Forall₂ (fun d p => ∃ spacing ends lineStart, p = Decl.part spacing ends lineStart d)
      (Entry.buildAll es ts).1 ps) : Part.Cover ps (ts.take (Entry.countAll es)) := by
  induction es generalizing ts ps with
  | nil =>
    cases parts
    simpa [Entry.countAll] using Part.Cover.nil
  | cons e rest ih =>
    rw [List.forall_mem_cons] at plain
    have size := Entry.count_of_no_body plain.1.body
    simp only [Entry.countAll, size] at enough ⊢
    simp only [Entry.buildAll] at parts
    cases parts with
    | cons first others =>
      obtain ⟨spacing, ends, lineStart, rfl⟩ := first
      have left := Entry.build_rest e ts
      rw [size] at left
      rw [left] at others
      rw [List.take_add]
      exact .cons (plain.1.takes (by omega) spacing ends lineStart)
        (ih plain.2 (by simp; omega) others)

theorem importParts_parts (lineStart : Bool) (ds : List Decl) :
    List.Forall₂ (fun d p => ∃ spacing ends lineStart, p = Decl.part spacing ends lineStart d) ds
      (Decl.importParts lineStart ds) := by
  cases ds with
  | nil => exact .nil
  | cons d rest =>
    refine .cons ⟨_, _, _, rfl⟩ (List.forall₂_map_right_iff.mpr (List.forall₂_same.mpr ?_))
    exact fun d _ => ⟨_, _, _, rfl⟩

theorem attributeParts_parts (lineStart : Bool) (ds : List Decl) :
    List.Forall₂ (fun d p => ∃ spacing ends lineStart, p = Decl.part spacing ends lineStart d) ds
      (Decl.attributeParts lineStart ds) := by
  induction ds generalizing lineStart with
  | nil => exact .nil
  | cons d rest ih => exact .cons ⟨_, _, _, rfl⟩ (ih _)

def Body.inner (b : Body Entry) : Nat :=
  Entry.countAll b.imports + Entry.countAll b.attributes + Entry.countAll b.members

theorem Body.count_eq (b : Body Entry) : b.count = b.inner + b.closing := by
  cases b
  rfl

theorem Body.build_close (b : Body Entry) (openTrailing : Span) (ts : List PlacedToken) :
    (b.build openTrailing ts).block.closeLeading = leadingOf ((ts.drop b.inner).take b.closing) ∧
      (b.build openTrailing ts).block.close = join ((ts.drop b.inner).take b.closing) ∧
      (b.build openTrailing ts).trailing = trailingOf ((ts.drop b.inner).take b.closing) := by
  obtain ⟨braced, imports, attributes, members, closing⟩ := b
  simp only [Body.build, Entry.buildAll_rest, List.drop_drop, Body.inner, and_self]

theorem Entry.Closed.body (h : e.Closed) (eq : e.body = some b) :
    0 < e.size ∧ 0 < b.closing ∧ (∀ e ∈ b.imports ++ b.attributes, e.Plain) ∧
      ∀ e ∈ b.members, e.Closed := by
  cases h with
  | plain h =>
    rw [h.body] at eq
    cases eq
  | container size braced closing preamble members =>
    cases eq
    exact ⟨size, closing, preamble, members⟩

theorem Entry.Closed.plain_of_none (h : e.Closed) (none : e.body = none) : e.Plain := by
  cases h with
  | plain h => exact h
  | container => cases none

mutual

theorem Entry.cover : (e : Entry) → e.Closed → (ts : List PlacedToken) → e.count ≤ ts.length →
    (packed lineStart : Bool) →
    Part.Cover ((e.build ts).1.memberParts packed lineStart) (ts.take e.count)
  | ⟨kind, visibility, key, size, none⟩, closed, ts, enough, packed, lineStart => by
    have plain := closed.plain_of_none rfl
    rw [Entry.count_of_no_body plain.body] at enough ⊢
    have takes := plain.takes enough (if packed then .packed else kind.spacing) kind.endsLine lineStart
    exact .single (by simpa [Entry.build_plain plain.body, Decl.part, Block.printOption] using takes)
  | ⟨kind, visibility, key, size, some body⟩, closed, ts, enough, packed, lineStart => by
    obtain ⟨positive, closing, preamble, members⟩ := closed.body rfl
    have inner := Body.cover body preamble members (trailingOf (ts.take size)) (ts.drop size)
    obtain ⟨closeLeading, close, closeTrailing⟩ :=
      body.build_close (trailingOf (ts.take size)) (ts.drop size)
    simp only [Entry.count, Body.countOption, Body.count_eq] at enough ⊢
    simp only [Entry.build, Body.buildOption, Decl.memberParts, Block.partsOption]
    rw [List.take_add, List.take_add]
    refine .cons ⟨take_ne_nil positive (by omega), rfl, rfl, build_openTrailing .., ?_⟩
      ((inner (by simp; omega)).append (.single ⟨take_ne_nil closing (by simp; omega), closeLeading,
        close, closeTrailing, by simp [Block.closingPart]⟩))
    cases lineStart <;> simp [Block.openingPart]

theorem Body.cover : (b : Body Entry) → (∀ e ∈ b.imports ++ b.attributes, e.Plain) →
    (∀ e ∈ b.members, e.Closed) → (openTrailing : Span) → (ts : List PlacedToken) →
    b.inner ≤ ts.length → Part.Cover (b.build openTrailing ts).block.parts (ts.take b.inner)
  | ⟨braced, imports, attributes, members, closing⟩, preamble, closed, openTrailing, ts, enough => by
    rw [List.forall_mem_append] at preamble
    simp only [Body.inner] at enough preamble ⊢
    simp only [Body.build, Block.parts]
    rw [Entry.buildAll_rest imports, Entry.buildAll_rest attributes, List.take_add, List.take_add]
    refine ((cover_of_plain preamble.1 (by omega) (importParts_parts ..)).append
      (cover_of_plain preamble.2 (by simp; omega) (attributeParts_parts ..))).append ?_
    rw [List.drop_drop]
    exact Entry.coverAll members closed _ (by simp; omega) _ _

theorem Entry.coverAll : (es : List Entry) → (∀ e ∈ es, e.Closed) → (ts : List PlacedToken) →
    Entry.countAll es ≤ ts.length → (packed lineStart : Bool) →
    Part.Cover (Decl.memberPartsAll packed lineStart (Entry.buildAll es ts).1)
      (ts.take (Entry.countAll es))
  | [], _, ts, _, packed, lineStart => by
    rw [Entry.countAll, List.take_zero]
    exact .nil
  | e :: rest, closed, ts, enough, packed, lineStart => by
    rw [List.forall_mem_cons] at closed
    simp only [Entry.countAll] at enough ⊢
    simp only [Entry.buildAll, Decl.memberPartsAll]
    rw [List.take_add, Entry.build_rest]
    exact (Entry.cover e closed.1 ts (by omega) packed lineStart).append
      (Entry.coverAll rest closed.2 _ (by simp; omega) false _)

end

theorem Entry.buildAll_append (es fs : List Entry) (ts : List PlacedToken) :
    (Entry.buildAll (es ++ fs) ts).1 =
      (Entry.buildAll es ts).1 ++ (Entry.buildAll fs (ts.drop (Entry.countAll es))).1 := by
  induction es generalizing ts with
  | nil => simp [Entry.buildAll, Entry.countAll]
  | cons e es ih =>
    simp only [List.cons_append, Entry.buildAll, Entry.countAll, ih, Entry.build_rest,
      List.drop_drop]

end Outline

/-- The end of a namespace without braces, which takes no token. -/
def Part.hollow : Part :=
  ⟨.free, true, none, [], "", []⟩

theorem Decl.memberPartsAll_append (packed lineStart : Bool) (ds es : List Decl) :
    ∃ packed' lineStart', memberPartsAll packed lineStart (ds ++ es) =
      memberPartsAll packed lineStart ds ++ memberPartsAll packed' lineStart' es := by
  induction ds generalizing packed lineStart with
  | nil => exact ⟨packed, lineStart, by simp [memberPartsAll]⟩
  | cons d ds ih =>
    obtain ⟨packed', lineStart', rest⟩ := ih false (d.kind.endsLine || Span.endsLine d.trailing)
    exact ⟨packed', lineStart', by
      simp only [List.cons_append, memberPartsAll, rest, List.append_assoc]⟩

namespace Outline

variable {inner : Body Entry} {header : Entry}

theorem Entry.memberParts_fileScoped (opens : header.Opens) (unbraced : inner.braced = false)
    (unclosed : inner.closing = 0) (ts : List PlacedToken) (packed lineStart : Bool) :
    ∃ opening : Part, (header.size ≤ ts.length → opening.Takes (ts.take header.size)) ∧
      (Entry.build { header with body := some inner } ts).1.memberParts packed lineStart =
        opening :: ((inner.build (trailingOf (ts.take header.size)) (ts.drop header.size)).block.parts ++
          [Part.hollow]) := by
  obtain ⟨kind, visibility, key, size, body⟩ := header
  obtain ⟨positive, container, rfl⟩ := opens
  obtain ⟨noLeading, noClose, noTrailing⟩ :=
    build_unclosed unclosed (trailingOf (ts.take size)) (ts.drop size)
  have plain : (inner.build (trailingOf (ts.take size)) (ts.drop size)).block.braced = false := by
    cases inner
    exact unbraced
  simp only [Entry.build, Body.buildOption, Decl.memberParts, Block.partsOption]
  refine ⟨_, fun enough => ⟨take_ne_nil positive enough, rfl, rfl, build_openTrailing .., ?_⟩,
    congrArg₂ List.cons rfl (congrArg _ ?_)⟩
  · cases lineStart <;> simp [Block.openingPart]
  · simp [Block.closingPart, Block.closingSpacing, plain, noLeading, noClose, noTrailing,
      Part.hollow, DeclKind.endsLine]

theorem Body.Open.unbraced (h : b.Open) : b.braced = false := by
  cases h <;> assumption

theorem Body.Open.unclosed (h : b.Open) : b.closing = 0 := by
  cases h <;> assumption

/-- Behind the parts that take the tokens there are only ends of namespaces. -/
def CoveredTo (parts : List Part) (ts : List PlacedToken) : Prop :=
  ∃ solid : List Part, ∃ k : Nat,
    parts = solid ++ List.replicate k Part.hollow ∧ Part.Cover solid ts ∧ (solid = [] → k = 0)

theorem CoveredTo.prepend {qs : List Part} {us : List PlacedToken} (front : Part.Cover ps ts)
    (h : CoveredTo qs us) : CoveredTo (ps ++ qs) (ts ++ us) := by
  obtain ⟨solid, k, rfl, cover, started⟩ := h
  exact ⟨ps ++ solid, k, (List.append_assoc ..).symm, front.append cover,
    fun none => started (List.append_eq_nil_iff.mp none).2⟩

theorem CoveredTo.wrap (opening : p.Takes own) (h : CoveredTo ps ts) :
    CoveredTo (p :: (ps ++ [Part.hollow])) (own ++ ts) := by
  obtain ⟨solid, k, rfl, cover, -⟩ := h
  exact ⟨p :: solid, k + 1, by rw [List.append_assoc, List.replicate_succ', List.cons_append],
    .cons opening cover, by simp⟩

theorem coveredTo_members {before : List Entry} (closed : ∀ e ∈ before, e.Closed)
    (opens : header.Opens) (unbraced : inner.braced = false) (unclosed : inner.closing = 0)
    (covered : ∀ (openTrailing : Span) (ts : List PlacedToken), inner.count ≤ ts.length →
      CoveredTo (inner.build openTrailing ts).block.parts (ts.take inner.count))
    (ts : List PlacedToken)
    (enough : Entry.countAll (before ++ [{ header with body := some inner }]) ≤ ts.length)
    (packed lineStart : Bool) : CoveredTo (Decl.memberPartsAll packed lineStart
      (Entry.buildAll (before ++ [{ header with body := some inner }]) ts).1)
      (ts.take (Entry.countAll (before ++ [{ header with body := some inner }]))) := by
  simp only [Entry.countAll_append, Entry.countAll, Entry.count_with_body, Nat.add_zero] at enough ⊢
  rw [Entry.buildAll_append, List.take_add, List.take_add]
  obtain ⟨packed', lineStart', split⟩ := Decl.memberPartsAll_append packed lineStart
    (Entry.buildAll before ts).1 (Entry.buildAll [{ header with body := some inner }]
      (ts.drop (Entry.countAll before))).1
  obtain ⟨opening, takes, parts⟩ := Entry.memberParts_fileScoped opens unbraced unclosed
    (ts.drop (Entry.countAll before)) packed' lineStart'
  rw [split]
  simp only [Entry.buildAll, Decl.memberPartsAll, List.append_nil, parts]
  refine .prepend (Entry.coverAll before closed ts (by omega) packed lineStart) ?_
  exact .wrap (takes (by simp; omega)) (covered _ _ (by simp; omega))

theorem Body.Open.cover (h : b.Open) (openTrailing : Span) (ts : List PlacedToken)
    (enough : b.count ≤ ts.length) :
    CoveredTo (b.build openTrailing ts).block.parts (ts.take b.count) := by
  induction h generalizing openTrailing ts with
  | @last b unbraced unclosed preamble members _ =>
    rw [Body.count_eq, unclosed, Nat.add_zero] at enough ⊢
    exact ⟨_, 0, (List.append_nil _).symm, b.cover preamble members openTrailing ts enough,
      fun _ => rfl⟩
  | @fileScoped b inner before header unbraced unclosed preamble closed opens members rest _ ih =>
    obtain ⟨braced, imports, attributes, all, closing⟩ := b
    simp only at unclosed members preamble
    subst members unclosed
    rw [List.forall_mem_append] at preamble
    simp only [Body.count, Nat.add_zero] at enough ⊢
    simp only [Body.build, Block.parts, Entry.buildAll_rest, List.drop_drop]
    rw [List.take_add, List.take_add]
    refine .prepend ((cover_of_plain preamble.1 (by omega) (importParts_parts ..)).append
      (cover_of_plain preamble.2 (by simp; omega) (attributeParts_parts ..))) ?_
    exact coveredTo_members closed opens rest.unbraced rest.unclosed ih _
      (by rw [List.length_drop]; omega) _ _

end Outline

structure Part.Lexed (p : Part) : Prop where
  leading : p.leading.LexedLeading
  trailing : p.trailing.LexedTrailing
  text : ∃ a, p.text.toList.head? = some a ∧ isVoid a = false
  indent : ∀ w, p.indent = some w → ∀ c ∈ w.toList, isSpace c

def Part.front (tail : Span) : List Part → Span
  | [] => tail
  | p :: _ => p.leading

/-- Each part is joined to what follows it; one that is given an indentation does not start its
line. -/
def Part.Chained (tail : Span) : List Part → Prop
  | [] => True
  | p :: rest => p.trailing.Joint (front tail rest) ∧
      (∀ q, rest.head? = some q → q.indent ≠ none → p.trailing.endsLine = false) ∧
      Chained tail rest

theorem Span.breaksLine_of_endsLine (h : span.endsLine) : span.breaksLine := by
  unfold endsLine at h
  cases last : span.getLast? with
  | none => simp [last] at h
  | some t =>
    refine List.any_eq_true.mpr ⟨t, List.mem_of_getLast? last, ?_⟩
    simp_all [Trivia.isEndOfLine, Trivia.breaksLine]

theorem Span.isSpace_text (h : ∀ t ∈ span, t.Lexed ∧ t.isWhitespace) :
    ∀ c ∈ (Span.text span).toList, isSpace c := by
  induction span with
  | nil => simp
  | cons t span ih =>
    rw [List.forall_mem_cons] at h
    rw [text_cons, String.toList_append, List.forall_mem_append]
    exact ⟨(h.1.1.whitespace h.1.2).2, ih h.2⟩

theorem Span.isSpace_indentation {leading : Span} (h : leading.LexedLeading) :
    ∀ c ∈ leading.indentation.toList, isSpace c := by
  refine isSpace_text fun t mem => ⟨h.pieces t ?_, List.mem_takeWhile_imp mem⟩
  have inLine := (List.takeWhile_prefix _).subset mem
  rw [List.mem_reverse] at inLine
  exact List.mem_reverse.mp ((List.takeWhile_prefix _).subset inLine)

namespace PlacedToken

structure Lexed (t : PlacedToken) : Prop where
  token : t.toToken.Lexed
  indent : ∀ w, t.lineIndent = some w → ∀ c ∈ w.toList, isSpace c

theorem place_indent {Q : String → Prop} (none : Q "") {ts : List Token}
    (h : ∀ t ∈ ts, Q t.leading.indentation) :
    ∀ t ∈ place ts, ∀ w, t.lineIndent = some w → Q w := by
  have step : ∀ (lineStart : Bool) (indent : String), Q indent →
      ∀ t ∈ placeFrom lineStart indent ts, ∀ w, t.lineIndent = some w → Q w := by
    induction ts with
    | nil => simp [placeFrom]
    | cons t rest ih =>
      intro lineStart indent known
      rw [List.forall_mem_cons] at h
      rw [placeFrom, List.forall_mem_cons]
      refine ⟨fun w inside => ?_, ih h.2 _ _ ?_⟩
      · split at inside <;> cases inside
        exact known
      · split
        · exact h.1
        · exact known
  exact step true "" none

theorem place_lexed {ts : List Token} (h : ∀ t ∈ ts, t.Lexed) : ∀ t ∈ place ts, t.Lexed :=
  fun t mem => ⟨h _ (mem_of_mem_place mem),
    place_indent (by simp) (fun t mem => Span.isSpace_indentation (h t mem).leading) t mem⟩

theorem trailingOf_mem (nonempty : own ≠ []) : ∃ t ∈ own, trailingOf own = t.trailing :=
  ⟨_, List.getLast_mem nonempty,
    by simp [trailingOf, List.getLast?_eq_getLast_of_ne_nil nonempty]⟩

def front (tail : Span) : List PlacedToken → Span
  | [] => tail
  | t :: _ => t.leading

def Chained (tail : Span) : List PlacedToken → Prop
  | [] => True
  | t :: rest => t.trailing.Joint (front tail rest) ∧
      (∀ q, rest.head? = some q → q.lineIndent ≠ none → t.trailing.endsLine = false) ∧
      Chained tail rest

theorem front_placeFrom (tail : Span) (lineStart : Bool) (indent : String) (ts : List Token) :
    front tail (placeFrom lineStart indent ts) = TokenStream.front tail ts := by
  cases ts <;> rfl

theorem chained_placeFrom {ts : List Token} (h : TokenStream.Chained tail ts) (lineStart : Bool)
    (indent : String) : Chained tail (placeFrom lineStart indent ts) := by
  induction ts generalizing lineStart indent with
  | nil => trivial
  | cons t rest ih =>
    refine ⟨by rw [front_placeFrom]; exact h.1, fun q head inside => ?_, ih h.2 _ _⟩
    cases rest with
    | nil => simp [placeFrom] at head
    | cons next rest =>
      simp only [placeFrom, List.head?_cons, Option.some.injEq] at head
      subst head
      by_contra ends
      simp [Span.breaksLine_of_endsLine (by simpa using ends)] at inside

theorem place_head_indent (ts : List Token) :
    ∀ q, (place ts).head? = some q → q.lineIndent = none := by
  intro q head
  cases ts with
  | nil => simp [place, placeFrom] at head
  | cons t rest =>
    simp only [place, placeFrom, List.head?_cons, Option.some.injEq, Bool.true_or, if_true] at head
    rw [← head]

theorem Chained.append (nonempty : own ≠ []) (h : Chained tail (own ++ ts)) :
    (trailingOf own).Joint (front tail ts) ∧
      (∀ q, ts.head? = some q → q.lineIndent ≠ none → (trailingOf own).endsLine = false) ∧
      Chained tail ts := by
  induction own with
  | nil => exact absurd rfl nonempty
  | cons t own ih =>
    cases own with
    | nil => exact h
    | cons next own =>
      have := ih (List.cons_ne_nil next own) h.2.2
      simpa [trailingOf] using this

end PlacedToken

namespace Part.Cover

theorem lexed (h : Cover ps ts) (lexed : ∀ t ∈ ts, t.Lexed) : ∀ p ∈ ps, p.Lexed := by
  induction h with
  | nil => simp
  | @cons p ps own ts first rest ih =>
    rw [List.forall_mem_append] at lexed
    refine List.forall_mem_cons.mpr ⟨?_, ih lexed.2⟩
    obtain ⟨nonempty, leading, text, trailing, indent⟩ := first
    obtain ⟨t, more, rfl⟩ := List.exists_cons_of_ne_nil nonempty
    have head := (lexed.1 t (by simp)).token
    obtain ⟨last, mem, ends⟩ := trailingOf_mem nonempty
    obtain ⟨a, starts, solid⟩ := head.text
    refine ⟨leading ▸ head.leading, trailing ▸ ends ▸ (lexed.1 last mem).token.trailing,
      ⟨a, ?_, solid⟩, fun w found => ?_⟩
    · rw [text]
      cases more with
      | nil => exact starts
      | cons next more => simp [join, starts]
    · exact (lexed.1 t (by simp)).indent w (indent w found)

theorem front_eq (h : Cover ps ts) (tail : Span) :
    Part.front tail ps = PlacedToken.front tail ts := by
  cases h with
  | nil => rfl
  | cons first rest =>
    obtain ⟨t, more, rfl⟩ := List.exists_cons_of_ne_nil first.nonempty
    exact first.leading

theorem head_indent (h : Cover ps ts) :
    ∀ p, ps.head? = some p → p.indent ≠ none → ∃ t, ts.head? = some t ∧ t.lineIndent ≠ none := by
  intro p head inside
  cases h with
  | nil => cases head
  | cons first rest =>
    obtain ⟨t, more, rfl⟩ := List.exists_cons_of_ne_nil first.nonempty
    cases head
    obtain ⟨w, some⟩ := Option.ne_none_iff_exists'.mp inside
    have := first.indent w some
    exact ⟨t, rfl, by simp_all⟩

theorem chained (h : Cover ps ts) (chained : PlacedToken.Chained tail ts) :
    Part.Chained tail ps := by
  induction h with
  | nil => trivial
  | @cons p ps own ts first rest ih =>
    obtain ⟨joint, inside, more⟩ := chained.append first.nonempty
    refine ⟨?_, fun q head indented => ?_, ih more⟩
    · rw [first.trailing, rest.front_eq]
      exact joint
    · obtain ⟨t, tokenHead, tokenIndented⟩ := rest.head_indent q head indented
      rw [first.trailing]
      exact inside t tokenHead tokenIndented

end Part.Cover

def Part.dropLeading (n : Nat) (p : Part) : Part :=
  { p with leading := p.leading.drop n }

theorem Decl.memberParts_drop (n : Nat) (packed lineStart : Bool) (d : Decl) :
    memberParts packed lineStart { d with leading := d.leading.drop n } =
      (d.memberParts packed lineStart).modifyHead (Part.dropLeading n) := by
  obtain ⟨kind, visibility, key, leading, text, block, trailing, lineIndent⟩ := d
  cases block <;> rfl

theorem Decl.memberParts_ne_nil (packed lineStart : Bool) (d : Decl) :
    d.memberParts packed lineStart ≠ [] := by
  obtain ⟨kind, visibility, key, leading, text, block, trailing, lineIndent⟩ := d
  cases block <;> simp [memberParts, Block.partsOption]

theorem modifyHead_append {α : Type} {f : α → α} {as : List α} (nonempty : as ≠ []) (bs : List α) :
    (as ++ bs).modifyHead f = as.modifyHead f ++ bs := by
  obtain ⟨a, as, rfl⟩ := List.exists_cons_of_ne_nil nonempty
  rfl

namespace Header

/-- A header comes off the leading trivia of the first part. -/
theorem detach_parts (root : Block Decl) :
    ∃ n, (detach root).1 = (Part.front [] root.parts).take n ∧
      (detach root).2.parts = root.parts.modifyHead (Part.dropLeading n) := by
  obtain cut | ⟨d, rest, n, -, place⟩ := detach_cases root
  · refine ⟨0, by rw [cut]; rfl, ?_⟩
    rw [cut]
    cases root.parts <;> rfl
  obtain ⟨braced, openTrailing, imports, attributes, members, closeLeading, close⟩ := root
  obtain ⟨rfl, cut⟩ | ⟨rfl, rfl, cut⟩ | ⟨rfl, rfl, rfl, cut⟩ := place
  · exact ⟨n, by rw [cut]; rfl, by rw [cut]; rfl⟩
  · have behind : ∀ lineStart, Decl.lineStartAfter lineStart
        ({ d with leading := d.leading.drop n } :: rest) =
          Decl.lineStartAfter lineStart (d :: rest) := by
      intro lineStart
      cases rest <;> rfl
    refine ⟨n, by rw [cut]; rfl, ?_⟩
    rw [cut]
    simp only [Block.parts, behind]
    rfl
  · refine ⟨n, ?_, ?_⟩
    · rw [cut]
      obtain ⟨kind, visibility, key, leading, text, block, trailing, lineIndent⟩ := d
      cases block <;> rfl
    · rw [cut]
      simp only [Block.parts, Decl.importParts, Decl.attributeParts, Decl.memberPartsAll,
        List.nil_append, Decl.memberParts_drop]
      rw [modifyHead_append (Decl.memberParts_ne_nil _ _ _)]
      rfl

end Header

/-- What is known of a tree that was read from a text: its parts, and how many namespaces without
braces end with it. -/
structure SourceFile.Read (file : SourceFile) (solid : List Part) (k : Nat) : Prop where
  parts : file.root.parts = solid ++ List.replicate k Part.hollow
  lexed : ∀ p ∈ solid, p.Lexed
  chained : Part.Chained file.root.closeLeading solid
  first : ∀ p, solid.head? = some p → p.indent = none
  empty : solid = [] → k = 0 ∧ file.header = []
  openTrailing : file.root.openTrailing = []
  braced : file.root.braced = false
  close : file.root.close = ""

theorem Part.Lexed.dropLeading (h : p.Lexed) (n : Nat) : (p.dropLeading n).Lexed where
  leading := ⟨fun t mem => h.leading.pieces t (List.mem_of_mem_drop mem), h.leading.apart.drop n⟩
  trailing := h.trailing
  text := h.text
  indent := h.indent

theorem Part.chained_modifyHead (h : Part.Chained tail ps) (n : Nat) :
    Part.Chained tail (ps.modifyHead (Part.dropLeading n)) := by
  cases ps with
  | nil => trivial
  | cons p rest => exact h

theorem Block.parts_closeLeading (b : Block Decl) (span : Span) :
    Block.parts { b with closeLeading := span } = b.parts := by
  cases b
  rfl

theorem SourceFile.ofTokens_frame (h : ofTokens stream = .ok file) :
    file.root.openTrailing = [] ∧ file.root.braced = false ∧
      file.root.closeLeading = stream.tail ∧ file.root.close = "" := by
  obtain ⟨outline, read, rfl⟩ := ofTokens_outline h
  obtain ⟨openTrailing, braced, closeLeading, close⟩ := Header.detach_frame
    { (outline.build [] (place stream.tokens)).block with closeLeading := stream.tail }
  refine ⟨openTrailing.trans (build_openTrailing ..), braced.trans ?_, closeLeading,
    close.trans (build_unclosed (ofLexemes_count read).1 [] _).2.1⟩
  have := (ofLexemes_open read).unbraced
  cases outline
  exact this

theorem SourceFile.ofTokens_read (lexed : stream.Lexed) (h : ofTokens stream = .ok file) :
    ∃ solid k, file.Read solid k := by
  obtain ⟨openTrailing, braced, closeLeading, close⟩ := ofTokens_frame h
  obtain ⟨outline, read, rfl⟩ := ofTokens_outline h
  have counted := (ofLexemes_count read).2
  rw [List.length_map, ← place_length] at counted
  obtain ⟨solid, k, shape, cover, started⟩ :=
    (ofLexemes_open read).cover [] (place stream.tokens) (Nat.le_of_eq counted)
  rw [counted, List.take_length] at cover
  obtain ⟨n, header, parts⟩ := Header.detach_parts
    { (outline.build [] (place stream.tokens)).block with closeLeading := stream.tail }
  rw [Block.parts_closeLeading (outline.build [] (place stream.tokens)).block, shape]
    at header parts
  refine ⟨solid.modifyHead (Part.dropLeading n), k, ?_, ?_, ?_, ?_, ?_, openTrailing, braced,
    close⟩
  · rw [parts]
    by_cases none : solid = []
    · simp [none, started none]
    · exact modifyHead_append none _
  · intro p mem
    have solids := cover.lexed (place_lexed lexed.tokens)
    cases solid with
    | nil => cases mem
    | cons q rest =>
      rw [List.forall_mem_cons] at solids
      rcases List.mem_cons.mp mem with rfl | mem
      · exact solids.1.dropLeading n
      · exact solids.2 p mem
  · rw [closeLeading]
    exact Part.chained_modifyHead (cover.chained (chained_placeFrom lexed.chained true "")) n
  · intro p head
    by_contra indented
    cases solid with
    | nil => cases head
    | cons q rest =>
      cases head
      obtain ⟨t, tokenHead, tokenIndented⟩ := cover.head_indent q rfl indented
      exact tokenIndented (place_head_indent _ t tokenHead)
  · intro none
    have none : solid = [] := by simpa using none
    exact ⟨started none, by simp [header, none, started none, Part.front]⟩

theorem SourceFile.parse_read {source : List Char} {symbols : List String}
    (h : parse source symbols = .ok file) : ∃ solid k, file.Read solid k := by
  obtain ⟨stream, read, lexed, built, rfl⟩ := parse_stream h
  obtain ⟨solid, k, known⟩ := ofTokens_read (tokenize_lexed lexed) built
  exact ⟨solid, k, known.parts, known.lexed, known.chained, known.first, known.empty,
    known.openTrailing, known.braced, known.close⟩

end CSharpTidy
