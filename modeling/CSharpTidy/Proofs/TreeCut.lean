import CSharpTidy.Proofs.ReadParts

/- Where the declarations of a tree come from. A declaration is one stretch of the tokens of the
   text, and a container in braces has a second stretch that closes it; only a container without
   braces, which reaches up to the end of the file, has none. -/
namespace CSharpTidy

open PlacedToken Outline SourceFile

/-- The declaration is made of tokens of `whole`. The first one of a file may have lost the front
of its leading trivia to the header. -/
structure Decl.CutFrom (whole : List PlacedToken) (d : Decl) : Prop where
  own : ∃ own n, own ≠ [] ∧ own <:+: whole ∧ d.leading = (leadingOf own).drop n ∧
    d.text = join own ∧ (d.block = none → d.trailing = trailingOf own) ∧
    (∀ b, d.block = some b → b.openTrailing = trailingOf own) ∧
    d.lineIndent = own.head?.bind PlacedToken.lineIndent
  closed : ∀ b, d.block = some b → b.braced → ∃ closing, closing ≠ [] ∧ closing <:+: whole ∧
    b.closeLeading = leadingOf closing ∧ b.close = join closing ∧ d.trailing = trailingOf closing
  unclosed : ∀ b, d.block = some b → b.braced = false →
    b.closeLeading = [] ∧ b.close = "" ∧ d.trailing = [] ∧ ∃ kind, d.kind = .container kind

/-- Inside of braces all containers have braces, and all fields are inside of braces. -/
structure Block.Nested (b : Block Decl) : Prop where
  braced : b.braced → ∀ d ∈ b.members, ∀ a, d.block = some a → a.braced
  fields : b.braced = false → ∀ d ∈ b.members, d.kind ≠ .field

inductive Block.CutFrom (whole : List PlacedToken) : Block Decl → Prop
  | intro {b : Block Decl} (decls : ∀ d ∈ b.decls, d.CutFrom whole)
      (plain : ∀ d ∈ b.imports ++ b.attributes, d.block = none) (nested : b.Nested)
      (bodies : ∀ d ∈ b.members, ∀ a, d.block = some a → CutFrom whole a) : CutFrom whole b

namespace Decl.CutFrom

variable {whole : List PlacedToken} {d : Decl} (h : d.CutFrom whole)
include h

variable {Q : Span → Prop}

theorem leads (none : Q []) (each : ∀ t ∈ whole, ∀ n, Q (t.leading.drop n)) :
    Q d.leading ∧ ∀ b, d.block = some b → Q b.closeLeading := by
  obtain ⟨⟨own, n, nonempty, inside, leading, -⟩, closed, unclosed⟩ := h
  obtain ⟨t, more, rfl⟩ := List.exists_cons_of_ne_nil nonempty
  refine ⟨leading ▸ each t (inside.subset (by simp)) n, fun b body => ?_⟩
  cases braced : b.braced with
  | true =>
    obtain ⟨closing, nonempty, inside, leading, -⟩ := closed b body braced
    obtain ⟨t, more, rfl⟩ := List.exists_cons_of_ne_nil nonempty
    exact leading ▸ each t (inside.subset (by simp)) 0
  | false => exact (unclosed b body braced).1 ▸ none

theorem trails (none : Q []) (each : ∀ t ∈ whole, Q t.trailing) :
    Q d.trailing ∧ ∀ b, d.block = some b → Q b.openTrailing := by
  have last : ∀ own, own ≠ [] → own <:+: whole → Q (trailingOf own) := by
    intro own nonempty inside
    obtain ⟨t, mem, last⟩ := trailingOf_mem nonempty
    exact last ▸ each t (inside.subset mem)
  obtain ⟨⟨own, n, nonempty, inside, -, -, trailing, opening, -⟩, closed, unclosed⟩ := h
  refine ⟨?_, fun b body => opening b body ▸ last own nonempty inside⟩
  cases body : d.block with
  | none => exact trailing body ▸ last own nonempty inside
  | some b =>
    cases braced : b.braced with
    | true =>
      obtain ⟨closing, nonempty, inside, -, -, trailing⟩ := closed b body braced
      exact trailing ▸ last closing nonempty inside
    | false => exact (unclosed b body braced).2.2.1 ▸ none

theorem texts {Q : String → Prop} (each : ∀ own, own ≠ [] → own <:+: whole → Q (join own)) :
    Q d.text ∧ ∀ b, d.block = some b → b.braced → Q b.close := by
  obtain ⟨⟨own, n, nonempty, inside, -, text, -⟩, closed, -⟩ := h
  refine ⟨text ▸ each own nonempty inside, fun b body braced => ?_⟩
  obtain ⟨closing, nonempty, inside, -, close, -⟩ := closed b body braced
  exact close ▸ each closing nonempty inside

theorem indent {w : String} (indented : d.lineIndent = some w) :
    ∃ t ∈ whole, t.lineIndent = some w := by
  obtain ⟨own, n, nonempty, inside, -, -, -, -, indent⟩ := h.own
  obtain ⟨t, more, rfl⟩ := List.exists_cons_of_ne_nil nonempty
  exact ⟨t, inside.subset (by simp), indent.symm.trans indented⟩

end Decl.CutFrom

namespace Outline

variable {whole ts : List PlacedToken} {b : Body Entry} {e : Entry}

theorem infix_take (inside : ts <:+ whole) (n : Nat) : ts.take n <:+: whole :=
  (List.take_prefix n ts).isInfix.trans inside.isInfix

theorem suffix_drop (inside : ts <:+ whole) (n : Nat) : ts.drop n <:+ whole :=
  (List.drop_suffix n ts).trans inside

structure BuiltFrom (whole : List PlacedToken) (d : Decl) : Prop where
  own : d.CutFrom whole
  body : ∀ a, d.block = some a → a.CutFrom whole

theorem Entry.Plain.builtFrom (plain : e.Plain) (inside : ts <:+ whole)
    (enough : e.count ≤ ts.length) :
    BuiltFrom whole (e.build ts).1 ∧ (e.build ts).1.block = none := by
  rw [Entry.count_of_no_body plain.body] at enough
  rw [Entry.build_plain plain.body]
  refine ⟨⟨⟨⟨ts.take e.size, 0, take_ne_nil plain.size enough, infix_take inside _, rfl, rfl,
    fun _ => rfl, ?_, rfl⟩, ?_, ?_⟩, ?_⟩, rfl⟩ <;> simp

theorem Entry.buildAll_cutFrom {P : Decl → Prop} {es : List Entry}
    (each : ∀ e ∈ es, ∀ ts : List PlacedToken, ts <:+ whole → e.count ≤ ts.length →
      P (e.build ts).1) (inside : ts <:+ whole) (enough : Entry.countAll es ≤ ts.length) :
    ∀ d ∈ (Entry.buildAll es ts).1, P d := by
  induction es generalizing ts with
  | nil => simp [Entry.buildAll]
  | cons e rest ih =>
    rw [List.forall_mem_cons] at each
    rw [Entry.countAll] at enough
    rw [Entry.buildAll, List.forall_mem_cons]
    refine ⟨each.1 ts inside (by omega), ih each.2 ?_ ?_⟩
    · rw [Entry.build_rest]
      exact suffix_drop inside _
    · rw [Entry.build_rest, List.length_drop]
      omega

theorem Entry.buildAll_kind (es : List Entry) (ts : List PlacedToken) :
    (Entry.buildAll es ts).1.map Decl.kind = es.map Entry.kind := by
  induction es generalizing ts with
  | nil => rfl
  | cons e rest ih =>
    obtain ⟨kind, visibility, key, size, body⟩ := e
    rw [Entry.buildAll, List.map_cons, List.map_cons, ih]
    cases body <;> rfl

theorem Body.build_cutFrom (preamble : ∀ e ∈ b.imports ++ b.attributes, e.Plain)
    (members : ∀ e ∈ b.members, ∀ ts : List PlacedToken, ts <:+ whole → e.count ≤ ts.length →
      BuiltFrom whole (e.build ts).1 ∧
        (b.braced → ∀ a, (e.build ts).1.block = some a → a.braced))
    (fields : b.braced = false → ∀ e ∈ b.members, e.kind ≠ .field) (openTrailing : Span)
    (inside : ts <:+ whole) (enough : b.inner ≤ ts.length) :
    (b.build openTrailing ts).block.CutFrom whole := by
  obtain ⟨braced, imports, attributes, all, closing⟩ := b
  rw [List.forall_mem_append] at preamble
  simp only [Body.inner] at enough members fields preamble
  -- Each list is built from the tokens that the lists in front of it leave.
  have importsBuilt := Entry.buildAll_cutFrom
    (P := fun d => BuiltFrom whole d ∧ d.block = none)
    (fun e mem ts => (preamble.1 e mem).builtFrom) inside (by omega)
  have attributesBuilt := Entry.buildAll_cutFrom
    (P := fun d => BuiltFrom whole d ∧ d.block = none)
    (fun e mem ts => (preamble.2 e mem).builtFrom)
    (suffix_drop inside (Entry.countAll imports)) (by rw [List.length_drop]; omega)
  have membersBuilt := Entry.buildAll_cutFrom
    (P := fun d => BuiltFrom whole d ∧ (braced → ∀ a, d.block = some a → a.braced)) members
    (suffix_drop (suffix_drop inside (Entry.countAll imports)) (Entry.countAll attributes))
    (by simp only [List.length_drop]; omega)
  simp only [Body.build, Entry.buildAll_rest]
  refine .intro ?_ ?_ ⟨fun inBraces d mem => (membersBuilt d mem).2 inBraces, fun unbraced => ?_⟩
    (fun d mem => (membersBuilt d mem).1.body)
  · simp only [Block.decls, List.forall_mem_append]
    exact ⟨⟨fun d mem => (importsBuilt d mem).1.own, fun d mem => (attributesBuilt d mem).1.own⟩,
      fun d mem => (membersBuilt d mem).1.own⟩
  · rw [List.forall_mem_append]
    exact ⟨fun d mem => (importsBuilt d mem).2, fun d mem => (attributesBuilt d mem).2⟩
  · rw [← List.forall_mem_map (f := Decl.kind) (P := (· ≠ .field)), Entry.buildAll_kind,
      List.forall_mem_map]
    exact fields unbraced

theorem Entry.build_container (header : Entry) (b : Body Entry) (ts : List PlacedToken) :
    (Entry.build { header with body := some b } ts).1 =
      { kind := header.kind, visibility := header.visibility, key := header.key,
        leading := leadingOf (ts.take header.size), text := join (ts.take header.size),
        block := some (b.build (trailingOf (ts.take header.size)) (ts.drop header.size)).block,
        trailing := (b.build (trailingOf (ts.take header.size)) (ts.drop header.size)).trailing,
        lineIndent := (ts.take header.size).head?.bind PlacedToken.lineIndent } := by
  cases header
  rfl

theorem Body.build_braced (b : Body Entry) (openTrailing : Span) (ts : List PlacedToken) :
    (b.build openTrailing ts).block.braced = b.braced := by
  cases b
  rfl

theorem Entry.Closed.builtFrom (closed : e.Closed) (inside : ts <:+ whole)
    (enough : e.count ≤ ts.length) :
    BuiltFrom whole (e.build ts).1 ∧ ∀ a, (e.build ts).1.block = some a → a.braced := by
  induction closed generalizing ts with
  | plain plain =>
    obtain ⟨built, unbodied⟩ := plain.builtFrom inside enough
    exact ⟨built, by simp [unbodied]⟩
  | @container header b size braced closing preamble members ih =>
    rw [Entry.count_with_body, Body.count_eq] at enough
    have after := suffix_drop inside header.size
    have body := Body.build_cutFrom preamble
      (fun e mem ts inside enough =>
        let built := ih e mem inside enough
        ⟨built.1, fun _ => built.2⟩)
      (by simp [braced]) (trailingOf (ts.take header.size)) after (by rw [List.length_drop]; omega)
    obtain ⟨closeLeading, close, closeTrailing⟩ :=
      b.build_close (trailingOf (ts.take header.size)) (ts.drop header.size)
    rw [Entry.build_container]
    refine ⟨⟨⟨⟨_, 0, take_ne_nil size (by omega), infix_take inside _, rfl, rfl, by simp, ?_, rfl⟩,
      ?_, ?_⟩, ?_⟩, ?_⟩ <;> simp only [Option.some.injEq, forall_eq', Body.build_braced, braced]
    · exact build_openTrailing ..
    · exact fun _ => ⟨_, take_ne_nil closing (by simp only [List.length_drop]; omega),
        infix_take (suffix_drop after b.inner) _, closeLeading, close, closeTrailing⟩
    · simp
    · exact body

theorem Body.Open.cutFrom (opens : b.Open) (openTrailing : Span) (inside : ts <:+ whole)
    (enough : b.count ≤ ts.length) : (b.build openTrailing ts).block.CutFrom whole := by
  induction opens generalizing openTrailing ts with
  | @last b unbraced unclosed preamble members fields =>
    rw [Body.count_eq] at enough
    refine Body.build_cutFrom preamble (fun e mem ts inside enough => ?_) (fun _ => fields)
      openTrailing inside (by omega)
    exact ⟨((members e mem).builtFrom inside enough).1, fun _ =>
      ((members e mem).builtFrom inside enough).2⟩
  | @fileScoped b inner before header unbraced unclosed preamble closed opens members rest fields ih =>
    rw [Body.count_eq] at enough
    refine Body.build_cutFrom preamble ?_ (fun _ => fields) openTrailing inside (by omega)
    simp only [members, List.forall_mem_append, List.forall_mem_singleton, unbraced,
      Bool.false_eq_true, false_implies, and_true]
    refine ⟨fun e mem ts inside enough => ((closed e mem).builtFrom inside enough).1,
      fun ts inside enough => ?_⟩
    rw [Entry.count_with_body] at enough
    have body := ih (trailingOf (ts.take header.size)) (suffix_drop inside header.size)
      (by rw [List.length_drop]; omega)
    obtain ⟨closeLeading, close, closeTrailing⟩ :=
      build_unclosed rest.unclosed (trailingOf (ts.take header.size)) (ts.drop header.size)
    rw [Entry.build_container]
    refine ⟨⟨⟨_, 0, take_ne_nil opens.size (by omega), infix_take inside _, rfl, rfl, by simp, ?_,
      rfl⟩, ?_, ?_⟩, ?_⟩ <;>
      simp only [Option.some.injEq, forall_eq', Body.build_braced, rest.unbraced]
    · exact build_openTrailing ..
    · simp
    · exact fun _ => ⟨closeLeading, close, closeTrailing, opens.kind⟩
    · exact body

end Outline

variable {whole : List PlacedToken}

theorem Decl.CutFrom.dropLeading {d : Decl} (h : d.CutFrom whole) (n : Nat) :
    Decl.CutFrom whole { d with leading := d.leading.drop n } := by
  obtain ⟨⟨own, m, nonempty, inside, leading, rest⟩, closed, unclosed⟩ := h
  refine ⟨⟨own, m + n, nonempty, inside, ?_, rest⟩, closed, unclosed⟩
  rw [leading, List.drop_drop]

theorem Header.detach_cutFrom {root : Block Decl} (h : root.CutFrom whole) :
    (∀ t ∈ (detach root).1, ∃ token ∈ whole, t ∈ token.leading) ∧
      (detach root).2.CutFrom whole := by
  obtain ⟨decls, plain, nested, bodies⟩ := h
  obtain ⟨header, decls⟩ := forall_detach (P := fun t => ∃ token ∈ whole, t ∈ token.leading)
    (fun d cut t mem => by
      obtain ⟨own, n, nonempty, inside, leading, -⟩ := cut.own
      obtain ⟨token, more, rfl⟩ := List.exists_cons_of_ne_nil nonempty
      rw [leading] at mem
      exact ⟨token, inside.subset (by simp), List.mem_of_mem_drop mem⟩)
    (fun _ n cut => cut.dropLeading n) decls
  have braced := (detach_frame root).2.1
  obtain ⟨imports, attributes, -⟩ := detach_map (f := Decl.block) (fun _ _ _ => rfl) root
  refine ⟨header, .intro decls ?_ ⟨fun inBraces => ?_, fun unbraced => ?_⟩
    (forall_body_detach bodies)⟩
  · rw [← List.forall_mem_map (f := Decl.block) (P := (· = none)), List.map_append, imports,
      attributes, ← List.map_append, List.forall_mem_map]
    exact plain
  · exact forall_body_detach (nested.braced (braced ▸ inBraces))
  · rw [← List.forall_mem_map (f := Decl.kind) (P := (· ≠ .field)),
      (detach_map (fun _ _ _ => rfl) root).2.2, List.forall_mem_map]
    exact nested.fields (braced ▸ unbraced)

theorem SourceFile.ofTokens_cutFrom {stream : TokenStream} {file : SourceFile}
    (h : ofTokens stream = .ok file) :
    (∀ t ∈ file.header, ∃ token ∈ place stream.tokens, t ∈ token.leading) ∧
      file.root.CutFrom (place stream.tokens) := by
  obtain ⟨outline, read, rfl⟩ := ofTokens_outline h
  obtain ⟨unclosed, counted⟩ := ofLexemes_count read
  rw [List.length_map, ← place_length] at counted
  obtain ⟨decls, plain, nested, bodies⟩ := (ofLexemes_open read).cutFrom []
    (List.suffix_refl (place stream.tokens)) (Nat.le_of_eq counted)
  exact Header.detach_cutFrom (.intro decls plain ⟨nested.braced, nested.fields⟩ bodies)

end CSharpTidy
