import CSharpTidy.Proofs.TreeCut

/- What is known of every block of a tree that was read from a text: its blanks hold white space
   and line breaks only, and none but members have bodies. -/
namespace CSharpTidy

open PlacedToken Outline SourceFile

structure Decl.Lexed (d : Decl) : Prop where
  leading : ∀ t ∈ d.leading, t.Lexed
  trailing : ∀ t ∈ d.trailing, t.Lexed
  indent : ∀ w, d.lineIndent = some w → ∀ c ∈ w.toList, isSpace c

/-- The blanks that a block owns itself are as the lexer makes them, and none but its members have
bodies. -/
structure Block.Lexed (b : Block Decl) : Prop where
  openTrailing : ∀ t ∈ b.openTrailing, t.Lexed
  closeLeading : ∀ t ∈ b.closeLeading, t.Lexed
  decls : ∀ d ∈ b.decls, d.Lexed
  plain : ∀ d ∈ b.imports ++ b.attributes, d.block = none

inductive Block.LexedAll : Block Decl → Prop
  | intro {b : Block Decl} (own : b.Lexed)
      (bodies : ∀ d ∈ b.members, ∀ a, d.block = some a → LexedAll a) : LexedAll b

structure SourceFile.Lexed (f : SourceFile) : Prop where
  header : ∀ t ∈ f.header, t.Lexed
  root : f.root.LexedAll

variable {b : Block Decl} {file : SourceFile}

theorem Block.CutFrom.lexed {whole : List PlacedToken} (tokens : ∀ t ∈ whole, t.Lexed)
    (h : b.CutFrom whole) (opening : ∀ t ∈ b.openTrailing, t.Lexed)
    (closing : ∀ t ∈ b.closeLeading, t.Lexed) : b.LexedAll := by
  induction h with
  | @intro b decls plain nested bodies ih =>
    have leads := fun d mem => (decls d mem).leads (Q := fun span => ∀ t ∈ span, t.Lexed) (by simp)
      fun t inside n piece cut =>
        (tokens t inside).token.leading.pieces piece (List.mem_of_mem_drop cut)
    have trails := fun d mem => (decls d mem).trails (Q := fun span => ∀ t ∈ span, t.Lexed)
      (by simp) fun t inside => (tokens t inside).token.trailing.pieces
    refine .intro ⟨opening, closing, fun d mem => ⟨(leads d mem).1, (trails d mem).1, ?_⟩,
      plain⟩ fun d mem a body => ?_
    · intro w found
      obtain ⟨t, inside, indent⟩ := (decls d mem).indent found
      exact (tokens t inside).indent w indent
    · have inside : d ∈ b.decls := List.mem_append_right _ mem
      exact ih d mem a body ((trails d inside).2 a body) ((leads d inside).2 a body)

theorem Decl.Lexed.mapBlocks {d : Decl} (h : d.Lexed) (f : Block Decl → Block Decl) :
    (d.mapBlocks f).Lexed := by
  rw [Decl.mapBlocks_eq]
  exact ⟨h.leading, h.trailing, h.indent⟩

namespace Block

theorem Lexed.mapMembers (h : b.Lexed) (f : Block Decl → Block Decl) :
    Lexed { b with members := b.members.map (Decl.mapBlocks f) } := by
  obtain ⟨opening, closing, decls, plain⟩ := h
  simp only [Block.decls, List.forall_mem_append] at decls
  refine ⟨opening, closing, ?_, plain⟩
  simp only [Block.decls, List.forall_mem_append, List.forall_mem_map]
  exact ⟨decls.1, fun d mem => (decls.2 d mem).mapBlocks f⟩

theorem LexedAll.mapBlocks {f : Block Decl → Block Decl}
    (keeps : ∀ b : Block Decl, b.LexedAll → (f b).LexedAll) (h : b.LexedAll) :
    (b.mapBlocks f).LexedAll := by
  induction h with
  | intro own bodies ih =>
    rw [mapBlocks_eq]
    refine keeps _ (.intro (own.mapMembers f) ?_)
    rw [List.forall_mem_map]
    intro d mem a body
    rw [Decl.mapBlocks_eq, Option.map_eq_some_iff] at body
    obtain ⟨inner, found, rfl⟩ := body
    exact ih d mem inner found

end Block

theorem SourceFile.ofTokens_lexed {stream : TokenStream} (lexed : stream.Lexed)
    (h : ofTokens stream = .ok file) : file.Lexed := by
  have placed := place_lexed lexed.tokens
  obtain ⟨header, root⟩ := ofTokens_cutFrom h
  obtain ⟨openTrailing, -, closeLeading, -⟩ := ofTokens_frame h
  refine ⟨fun t mem => ?_, root.lexed placed (by simp [openTrailing]) ?_⟩
  · obtain ⟨token, inside, piece⟩ := header t mem
    exact (placed token inside).token.leading.pieces t piece
  · rw [closeLeading]
    exact lexed.tail.pieces

theorem SourceFile.parse_lexed {source : List Char} {symbols : List String}
    (h : parse source symbols = .ok file) : file.Lexed := by
  obtain ⟨stream, read, lexed, built, rfl⟩ := parse_stream h
  obtain ⟨header, root⟩ := ofTokens_lexed (tokenize_lexed lexed) built
  exact ⟨header, root⟩

end CSharpTidy
