import CSharpTidy.Proofs.BlankLineShape
import CSharpTidy.Proofs.HeaderCut

/- Declarations that shared a line of the source and start one in the tidied text. Such a declaration
   is indented as its source line was if the trivia in front of it end with a line terminator. If
   the line ends only in the blank line that spacing puts in front of the declaration, nothing
   indents it. -/
namespace CSharpTidy

def lastLine (s : List Char) : List Char :=
  s.rtakeWhile fun c => !isLineBreak c

theorem lastLine_append_inline {v : List Char} (h : ∀ c ∈ v, isLineBreak c = false)
    (s : List Char) : lastLine (s ++ v) = lastLine s ++ v := by
  have inline : ∀ c ∈ v.reverse, (!isLineBreak c) = true := by simpa using h
  rw [lastLine, lastLine, List.rtakeWhile, List.reverse_append,
    List.takeWhile_append_of_pos inline, List.reverse_append, List.reverse_reverse, List.rtakeWhile]

theorem lastLine_append_spaces {w : List Char} (h : ∀ c ∈ w, isSpace c) (s : List Char) :
    lastLine (s ++ w) = lastLine s ++ w :=
  lastLine_append_inline (fun c mem => isLineBreak_of_isSpace (h c mem)) s

variable {ending : String} {before : List Char} {b : Block Decl} {ds : List Decl} {span : Span}
  {prior : Prior}

theorem lastLine_append_terminator (h : IsTerminator ending) (s : List Char) :
    lastLine (s ++ ending.toList) = [] := by
  have broken : ∀ (s : List Char) (c : Char), isLineBreak c → lastLine (s ++ [c]) = [] := by
    intro s c breaks
    exact List.rtakeWhile_concat_neg _ _ _ (by simp [breaks])
  rcases h with rfl | rfl | rfl
  · exact broken s '\n' rfl
  · exact broken s '\r' rfl
  · exact List.append_assoc s ['\r'] ['\n'] ▸ broken (s ++ ['\r']) '\n' rfl

def ShowsLast (s : List Char) : Prop :=
  ∃ c ∈ lastLine s, isSpace c = false

theorem EndsSolid.showsLast {s : List Char} (h : EndsSolid s) : ShowsLast s := by
  obtain ⟨front, c, back, rfl, solid, inline⟩ := h
  simp only [isVoid, Bool.or_eq_false_iff] at solid
  rw [ShowsLast, lastLine_append_inline (List.forall_mem_cons.mpr ⟨solid.2, inline⟩)]
  exact ⟨c, by simp, solid.1⟩

theorem Shown.showsLast (h : Shown before span) (trails : span.Trails)
    (inline : span.endsLine = false) : ShowsLast before := by
  obtain ⟨-, s, rfl, solid⟩ := h
  have white := Span.isSpace_text (trails.lexed.blanksBehind_of_inline inline)
  obtain ⟨c, mem, shows⟩ := solid.showsLast
  rw [ShowsLast, lastLine_append_spaces white]
  exact ⟨c, List.mem_append_left _ mem, shows⟩

theorem Span.lastLine_text (lexed : ∀ t ∈ span, t.Lexed) (ends : span.endsLine)
    (before : List Char) :
    lastLine (before ++ (Span.text span).toList) = [] := by
  cases span using List.reverseRecOn with
  | nil => cases ends
  | append_singleton init t =>
    have last : t.isEndOfLine := by simpa [endsLine] using ends
    have line : (Span.text [t]).toList = t.text.toList := by simp [Span.text]
    rw [Span.text_append, String.toList_append, line, ← List.append_assoc]
    exact lastLine_append_terminator ((lexed t (by simp)).endOfLine last) _

def BlockItem.lineIndent : BlockItem → Option String
  | .imported d | .globalAttribute d | .member d => d.lineIndent
  | .closing _ => none

def Site.ahead (s : Site) : List Char :=
  s.before ++ (Span.text s.item.leading).toList

theorem Site.ahead_through (s : Site) : s.ahead <+: s.through := by
  refine (List.prefix_append_right_inj s.before).mpr ?_
  cases s.item with
  | closing b =>
    simp only [BlockItem.leading, BlockItem.print, String.toList_append]
    exact List.prefix_append ..
  | _ =>
    simp only [BlockItem.leading, BlockItem.print, Decl.print_eq, String.append_assoc,
      String.toList_append]
    exact List.prefix_append ..

namespace Prior

/-- Whether the trivia in front of an item are taken to end a line. -/
def startsLine : Prior → Bool
  | .header _ => true
  | .opening braced span => Block.lineStartBehind braced span
  | .item (.imported d) | .item (.globalAttribute d) | .item (.member d) => d.trailing.endsLine
  | .item (.closing _) => true

/-- The text ends on a line that shows something, or a line starts behind it and is taken to. -/
def Lined (before : List Char) (prior : Prior) : Prop :=
  ShowsLast before ∨
    prior.startsLine ∧ (lastLine before = [] ∨ ∀ c ∈ before, isLineBreak c = false)

theorem lined_opening {braced : Bool} (trails : span.Trails) (shown : Shown before span)
    (text : ∃ s, before = s ++ (Span.text span).toList) :
    (Prior.opening braced span).Lined before := by
  cases ends : span.endsLine with
  | false => exact .inl (shown.showsLast trails ends)
  | true =>
    obtain ⟨s, rfl⟩ := text
    refine .inr ⟨?_, .inl (Span.lastLine_text trails.lexed.pieces ends s)⟩
    unfold Span.endsLine at ends
    cases last : span.getLast? with
    | none => simp [last] at ends
    | some t => simpa [startsLine, Block.lineStartBehind, last] using ends

end Prior

/-- What was split off its line has at most a line end in front of it, then its indentation if a line
is taken to start there. -/
def BlockItem.Aligned (ending : String) (prior : Prior) (item : BlockItem) : Prop :=
  ∀ w, item.lineIndent = some w → (∀ c ∈ w.toList, isSpace c) ∧
    ∃ gap : Span, (gap = [] ∨ gap = [.lineEnd ending]) ∧
      item.leading = gap ++ if prior.startsLine then Span.setIndent w [] else []

theorem Span.text_setIndent_nil (w : String) : Span.text (Span.setIndent w []) = w := by
  rw [Part.setIndent_nil]
  split
  · rename_i empty
    rw [String.isEmpty_iff.mp empty]
    rfl
  · simp [Span.text]

theorem Site.lastLine_ahead (terminator : IsTerminator ending) {s : Site}
    (lined : s.prior.Lined s.before) (aligned : s.item.Aligned ending s.prior) {w : String}
    (indented : s.item.lineIndent = some w) (breaks : ∃ c ∈ s.ahead, isLineBreak c)
    (first : ∀ c ∈ lastLine s.ahead, isSpace c) :
    lastLine s.ahead = if s.prior.startsLine then w.toList else [] := by
  obtain ⟨spaces, gap, line, leading⟩ := aligned w indented
  let indent : List Char := if s.prior.startsLine then w.toList else []
  have white : ∀ c ∈ indent, isSpace c := by
    intro c mem
    simp only [indent] at mem
    split at mem
    · exact spaces c mem
    · cases mem
  have text : s.ahead = s.before ++ (Span.text gap).toList ++ indent := by
    have own : (Span.text (if s.prior.startsLine then Span.setIndent w [] else [])).toList =
        indent := by
      simp only [indent]
      split
      · rw [Span.text_setIndent_nil]
      · rfl
    rw [ahead, leading, Span.text_append, String.toList_append, own, List.append_assoc]
  rw [text, lastLine_append_spaces white] at first ⊢
  rcases line with rfl | rfl
  · simp only [Span.text, String.toList_empty, List.append_nil] at text first ⊢
    rcases lined with ⟨c, mem, shows⟩ | ⟨-, starts | unbroken⟩
    · exact absurd (first c (List.mem_append_left _ mem)) (by simp [shows])
    · rw [starts, List.nil_append]
    · obtain ⟨c, mem, breaking⟩ := breaks
      rw [text, List.mem_append] at mem
      have inline : isLineBreak c = false := mem.elim (unbroken c) fun mem =>
        isLineBreak_of_isSpace (white c mem)
      rw [inline] at breaking
      cases breaking
  · have ended : (Span.text [Trivia.lineEnd ending]).toList = ending.toList := by
      simp [Span.text, Trivia.lineEnd]
    rw [ended, lastLine_append_terminator terminator, List.nil_append]

structure Decl.Shut (d : Decl) : Prop where
  firm : d.Firm
  closes : ∀ a, d.block = some a → a.braced → EndsSolid a.close.toList
  opens : ∀ a, d.block = some a → a.braced = false → d.trailing.endsLine

structure Decl.Split (ending : String) (d : Decl) : Prop extends d.Shut where
  indent : ∀ w, d.lineIndent = some w → ∀ c ∈ w.toList, isSpace c
  leading : d.lineIndent ≠ none → d.leading = [] ∨ d.leading = [.lineEnd ending]

namespace Decl

variable {ending : String} {d : Decl}

theorem Shut.withLeading (h : d.Shut) (span : Span) : Shut { d with leading := span } :=
  ⟨⟨h.firm.text, h.firm.trailing⟩, h.closes, h.opens⟩

theorem Shut.reindent (h : d.Shut) (lineStart : Bool) : (d.reindent lineStart).Shut := by
  unfold Decl.reindent
  split
  · split
    · exact h.withLeading _
    · exact h
  · exact h

theorem Shut.lined (h : d.Shut) (before : List Char) :
    ShowsLast (before ++ d.print.toList) ∨
      d.trailing.endsLine ∧ lastLine (before ++ d.print.toList) = [] := by
  cases ends : d.trailing.endsLine with
  | true =>
    refine .inr ⟨rfl, ?_⟩
    rw [Decl.print_eq, String.toList_append, ← List.append_assoc]
    exact Span.lastLine_text h.firm.trailing.lexed.pieces ends _
  | false =>
    refine .inl ((h.firm.shown (fun a body => h.closes a body ?_) before).showsLast
      h.firm.trailing ends)
    by_contra unbraced
    exact absurd (h.opens a body (by simpa using unbraced)) (by simp [ends])

theorem Split.withoutLeadingBlank (h : d.Split ending) : d.withoutLeadingBlank.Split ending := by
  refine ⟨h.toShut.withLeading _, h.indent, fun indented => .inl ?_⟩
  rcases h.leading indented with empty | line
  · rw [Decl.withoutLeadingBlank, empty]
    rfl
  · rw [Decl.withoutLeadingBlank, line]
    rfl

theorem Split.withLeadingBlank (h : d.Split ending) : (d.withLeadingBlank ending).Split ending := by
  refine ⟨h.toShut.withLeading _, h.indent, fun indented => .inr ?_⟩
  rcases h.leading indented with empty | line
  · rw [Decl.withLeadingBlank, empty]
    rfl
  · rw [Decl.withLeadingBlank, line]
    rfl

theorem Split.withoutTrailingBlank (terminator : IsTerminator ending) (h : d.Split ending) :
    (d.withoutTrailingBlank ending).Split ending :=
  ⟨⟨⟨h.firm.text, h.firm.trailing.endWhen terminator true⟩, h.closes,
    fun _ _ _ => Span.endsLine_stripTrailing ..⟩, h.indent, h.leading⟩

theorem split_spaceImports (terminator : IsTerminator ending) (h : ∀ d ∈ ds, d.Split ending) :
    ∀ d ∈ spaceImports ending ds, d.Split ending := by
  have packed : ∀ d ∈ ds, (d.withoutBlank ending).Split ending :=
    fun d mem => (h d mem).withoutLeadingBlank.withoutTrailingBlank terminator
  cases ds with
  | nil => simp [spaceImports]
  | cons d rest =>
    rw [List.forall_mem_cons] at packed
    rw [spaceImports, List.forall_mem_cons, List.forall_mem_map]
    exact ⟨packed.1.withLeadingBlank, packed.2⟩

theorem split_spaceMembers (h : ∀ d ∈ ds, (d.spaceMember ending).Split ending) (packed : Bool) :
    ∀ d ∈ spaceMembers ending packed ds, d.Split ending := by
  cases ds with
  | nil => simp [spaceMembers]
  | cons d rest =>
    rw [List.forall_mem_cons] at h
    rw [spaceMembers, List.map_cons]
    refine List.forall_mem_cons.mpr ⟨?_, List.forall_mem_map.mpr h.2⟩
    split
    · exact h.1.withoutLeadingBlank
    · exact h.1

end Decl

structure Shows (make : Decl → BlockItem) : Prop where
  leading : ∀ d, (make d).leading = d.leading
  lineIndent : ∀ d, (make d).lineIndent = d.lineIndent
  print : ∀ d, (make d).print = d.print.toList
  startsLine : ∀ d, (Prior.item (make d)).startsLine = d.trailing.endsLine

/-- An item is indented as what stands in front of it tells, and tells itself whether a line starts
behind it. -/
def Ruled (ending : String) : Prior → List BlockItem → Prop :=
  Each fun prior item => item.Aligned ending prior ∧
    ∀ before, (Prior.item item).Lined (before ++ item.print)

section
variable {make : Decl → BlockItem} (shows : Shows make)
include shows

theorem Decl.Split.aligned {d : Decl} (h : d.Split ending) (prior : Prior) :
    (make (d.reindent prior.startsLine)).Aligned ending prior := by
  intro w indented
  rw [shows.lineIndent, (Decl.Carried.reindent _ d).lineIndent] at indented
  refine ⟨h.indent w indented, d.leading, h.leading (by simp [indented]), ?_⟩
  rw [shows.leading, Decl.reindent, indented]
  simp only
  split
  · rcases h.leading (by simp [indented]) with empty | line
    · simp [empty]
    · simp [line, Span.setIndent_lineEnd_cons]
  · simp

theorem ruled_reindentAll (h : ∀ d ∈ ds, d.Split ending) (prior : Prior) :
    Ruled ending prior ((Decl.reindentAll prior.startsLine ds).map make) := by
  induction ds generalizing prior with
  | nil => trivial
  | cons d rest ih =>
    rw [List.forall_mem_cons] at h
    have next : (Prior.item (make (d.reindent prior.startsLine))).startsLine =
        d.trailing.endsLine := by
      rw [shows.startsLine, Decl.reindent_trailing]
    rw [Decl.reindentAll, ← next, List.map_cons]
    refine ⟨⟨h.1.aligned shows prior, fun before => ?_⟩, ih h.2 _⟩
    rw [Prior.Lined, shows.startsLine, shows.print]
    exact ((h.1.toShut.reindent _).lined before).imp_right fun ⟨ends, starts⟩ => ⟨ends, .inl starts⟩

theorem Prior.startsLine_behind (prior : Prior) (ds : List Decl) :
    (prior.behind (ds.map make)).startsLine = Decl.lineStartAfter prior.startsLine ds := by
  rw [behind, Decl.lineStartAfter, List.getLast?_map]
  cases ds.getLast? with
  | none => rfl
  | some d => exact shows.startsLine d

end

theorem shows_imported : Shows .imported :=
  ⟨fun _ => rfl, fun _ => rfl, fun _ => rfl, fun _ => rfl⟩

theorem shows_globalAttribute : Shows .globalAttribute :=
  ⟨fun _ => rfl, fun _ => rfl, fun _ => rfl, fun _ => rfl⟩

theorem shows_member : Shows .member :=
  ⟨fun _ => rfl, fun _ => rfl, fun _ => rfl, fun _ => rfl⟩

def Block.declItems (b : Block Decl) : List BlockItem :=
  b.imports.map .imported ++ b.attributes.map .globalAttribute ++ b.members.map .member

theorem Block.ruled_reindent (h : ∀ d ∈ b.decls, d.Split ending)
    (starts : prior.startsLine = lineStartBehind b.braced b.openTrailing) :
    Ruled ending prior b.reindent.declItems := by
  simp only [Block.decls, List.forall_mem_append] at h
  obtain ⟨⟨imports, attributes⟩, members⟩ := h
  -- the prior of the first attribute and of the first member
  let atAttributes := prior.behind ((Decl.reindentAll prior.startsLine b.imports).map .imported)
  let atMembers := atAttributes.behind
    ((Decl.reindentAll atAttributes.startsLine b.attributes).map .globalAttribute)
  have attributesStart : atAttributes.startsLine = Decl.lineStartAfter prior.startsLine b.imports :=
    (Prior.startsLine_behind shows_imported prior _).trans (Decl.lineStartAfter_reindentAll ..)
  have membersStart : atMembers.startsLine =
      Decl.lineStartAfter atAttributes.startsLine b.attributes :=
    (Prior.startsLine_behind shows_globalAttribute atAttributes _).trans
      (Decl.lineStartAfter_reindentAll ..)
  have ruled : Ruled ending prior ((Decl.reindentAll prior.startsLine b.imports).map .imported ++
      ((Decl.reindentAll atAttributes.startsLine b.attributes).map .globalAttribute ++
        (Decl.reindentAll atMembers.startsLine b.members).map .member)) :=
    (ruled_reindentAll shows_imported imports prior).append
      ((ruled_reindentAll shows_globalAttribute attributes atAttributes).append
        (ruled_reindentAll shows_member members atMembers))
  rw [membersStart, attributesStart, starts, ← List.append_assoc] at ruled
  exact ruled

theorem sitesFrom_concat (before : List Char) (prior : Prior) (items : List BlockItem)
    (last : BlockItem) : ∃ before' prior', sitesFrom before prior (items ++ [last]) =
      sitesFrom before prior items ++ [⟨before', prior', last⟩] := by
  induction items generalizing before prior with
  | nil => exact ⟨before, prior, rfl⟩
  | cons item items ih =>
    obtain ⟨before', prior', rest⟩ := ih (before ++ item.print) (.item item)
    exact ⟨before', prior', congrArg _ rest⟩

section
variable {ending : String} (terminator : IsTerminator ending)
include terminator

theorem Block.Firm.split (own : b.Firm)
    (closes : ∀ d ∈ b.members, ∀ a, d.block = some a → a.braced → EndsSolid a.close.toList) :
    (∀ d ∈ b.imports ++ b.attributes, d.Split ending) ∧
      ∀ d ∈ b.members, (d.spaceMember ending).Split ending := by
  obtain ⟨lexed, -, firm, -, -, inline, opens⟩ := own
  refine ⟨fun d mem => ?_, fun d mem => ?_⟩
  · have plain := lexed.plain d mem
    have found : d ∈ b.decls := List.mem_append_left _ mem
    exact ⟨⟨firm d found, by simp [plain], by simp [plain]⟩, (lexed.decls d found).indent,
      fun indented => .inl (inline d found indented)⟩
  · have found : d ∈ b.decls := List.mem_append_right _ mem
    rw [Decl.spaceMember_eq]
    refine ⟨⟨⟨(firm d found).text, (firm d found).trailing.endWhen terminator _⟩, closes d mem,
      fun a body unbraced => ?_⟩, (lexed.decls d found).indent, fun indented => ?_⟩
    · obtain ⟨kind, container⟩ := opens d mem a body unbraced
      simp only [container, DeclKind.endsLine]
      exact Span.endsLine_stripTrailing ..
    · simp only [inline d found indented]
      cases d.kind.spacing with
      | free => exact .inl rfl
      | packed => exact .inl rfl
      | spaced => exact .inr rfl

theorem Block.Firm.lastLine_sites (own : b.Firm)
    (closes : ∀ d ∈ b.members, ∀ a, d.block = some a → a.braced → EndsSolid a.close.toList)
    (lined : prior.Lined (before ++ (Span.text (b.space ending).openTrailing).toList))
    (starts : prior.startsLine = lineStartBehind b.braced (b.spaceOpening ending)) :
    ∀ s ∈ (b.space ending).ownSites before prior, ∀ w, s.item.lineIndent = some w →
      (∃ c ∈ s.ahead, isLineBreak c) → (∀ c ∈ lastLine s.ahead, isSpace c) →
      lastLine s.ahead = if s.prior.startsLine then w.toList else [] := by
  obtain ⟨plain, members⟩ := own.split terminator closes
  rw [List.forall_mem_append] at plain
  have split : ∀ d ∈ Decl.spaceImports ending b.imports ++ b.attributes ++
      Decl.spaceMembers ending (b.braced && b.imports.isEmpty && b.attributes.isEmpty) b.members,
      d.Split ending := by
    simp only [List.forall_mem_append]
    exact ⟨⟨Decl.split_spaceImports terminator plain.1, plain.2⟩, Decl.split_spaceMembers members _⟩
  have ruled : Ruled ending prior (b.space ending).declItems := by
    unfold Block.space
    refine ruled_reindent ?_ starts
    exact split
  obtain ⟨before', prior', sites⟩ := sitesFrom_concat
    (before ++ (Span.text (b.space ending).openTrailing).toList) prior (b.space ending).declItems
    (.closing (b.space ending))
  have own : (b.space ending).ownSites before prior = _ := sites
  rw [own, List.forall_mem_append, List.forall_mem_singleton]
  refine ⟨?_, fun w none => by cases none⟩
  exact ruled.forall_sites (F := fun before prior => prior.Lined before)
    (fun lined ruled w => Site.lastLine_ahead terminator lined ruled.1) (fun ruled => ruled.2) lined

/-- The same in every block of a tree, since each opens behind a line that is told right. -/
theorem Block.SpacedAll.lastLine_sites (h : b.SpacedAll ending)
    (lined : prior.Lined (before ++ (Span.text b.openTrailing).toList))
    (starts : prior.startsLine = lineStartBehind b.braced b.openTrailing) :
    ∀ s ∈ b.sites before prior, ∀ w, s.item.lineIndent = some w →
      (∃ c ∈ s.ahead, isLineBreak c) → (∀ c ∈ lastLine s.ahead, isSpace c) →
      lastLine s.ahead = if s.prior.startsLine then w.toList else [] :=
  h.forall_sites terminator
    (R := fun before prior b => prior.Lined (before ++ (Span.text b.openTrailing).toList) ∧
      prior.startsLine = lineStartBehind b.braced b.openTrailing)
    (fun trails shown => ⟨Prior.lined_opening trails shown ⟨_, rfl⟩, rfl⟩)
    (fun own closes known => own.lastLine_sites terminator closes known.1 known.2) ⟨lined, starts⟩

end

namespace Header

theorem detach_header (root : Block Decl) : Clean (detach root).1 ∧
    ((detach root).1 = [] ∨ ∃ d, root.decls.head? = some d ∧ (detach root).1 <+: d.leading) := by
  have header : (detach root).1 = (detachFirst root.decls).1 := congrArg Prod.fst (detach_decls root)
  rw [header]
  cases root.decls with
  | nil => exact ⟨⟨.inl rfl, rfl⟩, .inl rfl⟩
  | cons d rest =>
    obtain ⟨n, detached, clean⟩ := detachFirst_clean d rest
    rw [detached]
    exact ⟨clean, .inr ⟨d, rfl, List.take_prefix ..⟩⟩

end Header

open PlacedToken

theorem PlacedToken.leadingOf_take (ts : List PlacedToken) (n : Nat) :
    leadingOf (ts.take n) <+: front [] ts := by
  cases ts with
  | nil => simp [leadingOf]
  | cons t rest =>
    cases n with
    | zero => exact List.nil_prefix
    | succ n => exact List.prefix_refl _

theorem Outline.Body.build_head (body : Body Entry) {openTrailing : Span} {ts : List PlacedToken}
    {d : Decl} (h : (body.build openTrailing ts).block.decls.head? = some d) :
    d.leading <+: front [] ts := by
  rw [body.build_decls] at h
  cases entries : body.imports ++ body.attributes ++ body.members with
  | nil => simp [entries, Entry.buildAll] at h
  | cons e rest =>
    rw [entries, Entry.buildAll] at h
    cases h
    rw [Entry.build_leading]
    exact leadingOf_take ts e.size

theorem TokenStream.leading_flow {text : List Char} {symbols : List String} {s : TokenStream}
    (h : tokenize text symbols = .ok s) :
    ∃ ks c', Span.Flow false true (.ofSymbols symbols)
      (PlacedToken.front [] (PlacedToken.place s.tokens)) ks c' := by
  obtain ⟨r, traced, -⟩ := tokenize_traced h
  rw [PlacedToken.place, front_placeFrom]
  cases tokens : s.tokens with
  | nil => exact ⟨[], _, .nil _ _⟩
  | cons t rest =>
    simp only [atoms, tokens, List.flatMap_cons, Token.atoms, List.append_assoc,
      List.cons_append] at traced
    obtain ⟨r', s', leading, behind⟩ := traced.split
    obtain ⟨live, solid⟩ := behind.front_token
    exact ⟨_, _, (Span.flow_of_trace leading live fun ends => absurd ends solid).2 []
      (by simp [Span.White]) rfl⟩

namespace SourceFile

variable {file : SourceFile}

theorem header_lines {source : List Char} {symbols : List String}
    (h : parse source symbols = .ok file) (pinned : Bool) :
    Span.stripUnless pinned file.header = [] ∨ (Span.stripUnless pinned file.header).endsLine := by
  obtain ⟨stream, inner, tokenized, built, rfl⟩ := parse_stream h
  obtain ⟨clean, front⟩ : Header.Clean inner.header ∧
      inner.header <+: front [] (place stream.tokens) := by
    obtain ⟨body, -, rfl⟩ := ofTokens_outline built
    obtain ⟨clean, empty | ⟨d, head, front⟩⟩ := Header.detach_header
      { (body.build [] (place stream.tokens)).block with closeLeading := stream.tail }
    · exact ⟨clean, by rw [empty]; exact List.nil_prefix⟩
    · exact ⟨clean, front.trans (body.build_head head)⟩
  cases pinned with
  | true => exact clean.lines
  | false =>
    rcases clean.lines with empty | line
    · exact .inl (by simp [Span.stripUnless, empty]; rfl)
    · obtain ⟨rest, whole⟩ := front
      obtain ⟨ks, c', flow⟩ := TokenStream.leading_flow tokenized
      rw [← whole] at flow
      obtain ⟨c, ks, -, flow, -⟩ := flow.split line
      exact flow.stripRegions.2 (.inr line)

theorem Firm.header_lined (firm : file.Firm)
    (same : span = Span.stripUnless file.root.membersGuarded file.header)
    (lines : span = [] ∨ span.endsLine) :
    (Prior.header span).Lined (file.mark ++ (Span.text span).toList) := by
  refine .inr ⟨rfl, lines.symm.imp (fun ends => ?_) fun empty => ?_⟩
  · refine Span.lastLine_text ?_ ends _
    rw [same]
    exact Span.lexed_stripUnless _ fun t mem => (firm.header t mem).1
  · rw [empty]
    unfold mark
    split <;> simp [Span.text, isLineBreak, CSharpTidy.byteOrderMark]

/-- A declaration that was split off its line and is the first on its line in the tidied text stands
behind the indentation of its source line if the trivia in front of it end a line; if not,
nothing stands in front of it. -/
theorem tidy_splitLines {source : List Char} {symbols : List String} {file : SourceFile}
    (h : parse source symbols = .ok file) (roots : List String) {ending : String}
    (terminator : IsTerminator ending) :
    ∀ s ∈ ((file.reorganize roots).normalize ending).sites,
      s.ahead <+: ((file.reorganize roots).normalize ending).print.toList ∧
        ∀ w, s.item.lineIndent = some w → (∃ c ∈ s.ahead, isLineBreak c) →
          (∀ c ∈ lastLine s.ahead, isSpace c) →
          lastLine s.ahead = if s.prior.startsLine then w.toList else [] := by
  have firm := parse_firm h
  have tidied := firm.root.spacedAll roots ending
  have braced := file.root.braced_tidy roots ending
  rw [firm.braced] at braced
  have opening : ((file.root.reorganize roots).normalize ending).openTrailing = [] :=
    firm.opening_tidied roots ending
  have lined := firm.header_lined rfl (header_lines h file.root.membersGuarded)
  intro s mem
  refine ⟨?_, tidied.lastLine_sites terminator ?_ ?_ s mem⟩
  · have front := s.ahead_through.trans (Block.sites_through _ _ _ s mem)
    rw [print_toList, body, String.toList_append, ← List.append_assoc]
    exact front
  · rw [opening, Span.text, String.toList_empty, List.append_nil]
    exact lined
  · rw [opening, braced]
    rfl

/-- Two fields, a struct and an enum on one line. Behind the struct blanks are kept, and so the enum
starts its line at the margin. -/
theorem tidy_splitLines_class :
    let source := "class C\n\x7b\n#pragma p\n    int x; int y; struct S \x7b \x7d enum E \x7b \x7d\n\x7d\n".toList
    ∃ file, parse source [] = .ok file ∧
      ((file.reorganize ["System"]).normalize "\n").sites.map (fun s =>
        (s.item.lineIndent, s.prior.startsLine)) =
          [(none, true), (none, true), (none, true), (some "    ", true), (some "    ", true),
            (some "    ", false), (none, true)] ∧
      ∀ s ∈ ((file.reorganize ["System"]).normalize "\n").sites, ∀ w, s.item.lineIndent = some w →
        lastLine s.ahead = if s.prior.startsLine then w.toList else [] := by
  intro source
  have lines : (parse source []).toOption.map (fun file =>
      (((file.reorganize ["System"]).normalize "\n").sites.map (fun s =>
        (s.item.lineIndent, s.prior.startsLine)),
      ((file.reorganize ["System"]).normalize "\n").sites.all fun s =>
        s.ahead.any isLineBreak && (lastLine s.ahead).all isSpace)) =
      some ([(none, true), (none, true), (none, true), (some "    ", true), (some "    ", true),
        (some "    ", false), (none, true)], true) := by
    decide +kernel
  obtain ⟨file, read, shape⟩ := Option.map_eq_some_iff.mp lines
  obtain ⟨sites, first⟩ := Prod.mk.inj shape
  have parsed := eq_ok_of_toOption read
  refine ⟨file, parsed, sites, fun s mem w indented => ?_⟩
  have starts := List.all_eq_true.mp first s mem
  rw [Bool.and_eq_true, List.any_eq_true, List.all_eq_true] at starts
  exact (tidy_splitLines parsed ["System"] (.inl rfl) s mem).2 w indented starts.1 starts.2

end SourceFile

end CSharpTidy
