import CSharpTidy.Proofs.OutlineEnds
import CSharpTidy.Proofs.TreeCut

/- Two texts with the same lexemes. One has a tree if and only if the other has, the trees differ in
   trivia only, and where there is none the same lexeme is at fault. -/
namespace CSharpTidy

open PlacedToken

namespace Outline

open Lexeme

/-- The lexeme at fault stands among these, in front of those that are given with it. -/
def Fault.In (ls : List Lexeme) : Fault → Prop
  | .unexpected found rest => found :: rest <:+ ls
  | .endOfFile _ => True

variable {ls keyword : List Lexeme} {fault : Fault} {visibility : Visibility} {scope : Scope}
  {depth : Nat}

theorem Fault.In.of_suffix {whole : List Lexeme} (h : fault.In ls) (suffix : ls <:+ whole) :
    fault.In whole := by
  cases fault with
  | unexpected found rest => exact h.trans suffix
  | endOfFile => trivial

theorem Fault.In.cons (h : fault.In ls) (l : Lexeme) : fault.In (l :: ls) :=
  h.of_suffix (List.suffix_cons l ls)

theorem afterSemicolon_fault (h : afterSemicolon ls = .error fault) : fault.In ls := by
  fun_induction afterSemicolon ls with
  | case1 => cases h; trivial
  | case2 => cases h
  | case3 l rest => cases h; exact List.suffix_refl _
  | case4 l rest _ _ ih => exact (ih h).cons l

theorem afterAttributes_fault (h : afterAttributes ls = .error fault) : fault.In ls := by
  fun_induction afterAttributes ls with
  | case1 => cases h
  | case2 => cases h; trivial
  | case3 l rest _ after group ih =>
    exact (ih h).of_suffix ((afterGroup_suffix group).trans (List.suffix_cons l _))
  | case4 => cases h

theorem headerEnd_fault (h : headerEnd depth ls = .error fault) : fault.In ls := by
  fun_induction headerEnd depth ls
  case case1 => cases h; trivial
  case case5 => cases h
  case case6 => cases h; exact List.suffix_refl _
  case case2 ih | case3 ih | case4 ih | case7 ih => exact (ih h).cons _

theorem afterMember_fault {initialiser : Bool}
    (h : afterMember depth initialiser ls = .error fault) :
    fault.In ls := by
  have behind : ∀ {l : Lexeme} {ls after : List Lexeme},
      afterGroup "\x7b" "\x7d" 0 ls = some after → after <:+ l :: ls := fun group =>
    (afterGroup_suffix group).trans (List.suffix_cons _ _)
  fun_induction afterMember depth initialiser ls
  case case1 | case8 => cases h; trivial
  case case7 | case10 => cases h
  case case4 | case12 => cases h; exact List.suffix_refl _
  case case2 ih | case3 ih | case5 ih | case6 ih | case13 ih => exact (ih h).cons _
  case case9 group _ _ ih | case11 group _ ih => exact (ih h).of_suffix (behind group)

theorem readContainer_fault {kind : ContainerKind}
    (h : readContainer kind visibility ls keyword = .error fault) : fault.In keyword := by
  unfold readContainer at h
  split at h
  · rename_i header
    cases h
    exact headerEnd_fault header
  · simp only at h
    split at h
    · cases h
    · split at h <;> cases h

theorem readWholeType_fault {kind : DeclKind} {key : DeclKey}
    (h : readWholeType kind key visibility ls keyword = .error fault) : fault.In keyword := by
  unfold readWholeType at h
  simp only at h
  split at h
  · rename_i header
    cases h
    exact headerEnd_fault header
  · split at h
    · split at h <;> cases h
      trivial
    · cases h

theorem readPlainMember_fault {head : List Lexeme}
    (h : readPlainMember scope visibility ls head = .error fault) : fault.In head := by
  unfold readPlainMember at h
  split at h
  · rename_i member
    cases h
    exact afterMember_fault member
  · cases h

theorem readMember_fault (h : readMember scope ls = .error fault) : fault.In ls := by
  unfold readMember at h
  split at h
  · rename_i attributes
    cases h
    exact afterAttributes_fault attributes
  · rename_i unattributed attributes
    obtain ⟨-, lists, whole, -⟩ := afterAttributes_local attributes
    have suffix : unattributed.dropWhile Lexeme.isModifier <:+ ls :=
      (List.dropWhile_suffix _).trans ⟨lists, whole.symm⟩
    refine Fault.In.of_suffix ?_ suffix
    grind [→ readContainer_fault, → readWholeType_fault, → readPlainMember_fault]

theorem Partial.read_fault {p : Partial} (h : p.read ls = .error fault) : fault.In ls := by
  unfold Partial.read at h
  simp only at h
  split at h
  · unfold readImport at h
    split at h
    · rename_i ended
      cases h
      exact afterSemicolon_fault ended
    · cases h
  · split at h
    · unfold readGlobalAttribute at h
      split at h <;> cases h
      trivial
    · exact readMember_fault h

theorem read_fault {current : Partial} {outer : List (Entry × Partial)}
    (h : read current outer ls = .error fault) : fault.In ls := by
  fun_induction read current outer ls with
  | case1 => cases h; trivial
  | case2 => cases h
  | case3 current _ header parent outer ih => exact ih h
  | case4 current l rest _ header parent outer _ size ih =>
    exact (ih h).of_suffix ((List.drop_suffix _ rest).trans (List.suffix_cons l rest))
  | case5 => cases h; exact List.suffix_refl _
  | case6 current outer l rest _ fault' found => cases h; exact Partial.read_fault found
  | case7 current outer l rest _ e after item ih | case8 current outer l rest _ e after item ih
  | case9 current outer l rest _ e after item ih
  | case10 current outer l rest _ header scope braced after item ih =>
    exact (ih h).of_suffix (Partial.read_suffix item)

theorem Fault.toError_unexpected {stream : TokenStream} {found : Lexeme} {rest : List Lexeme}
    (h : found :: rest <:+ stream.tokens.map Token.toLexeme) :
    ∃ t, stream.tokens[stream.tokens.length - (rest.length + 1)]? = some t ∧
      t.toLexeme = found ∧
      (Fault.unexpected found rest).toError stream = .unexpected t.text t.position := by
  obtain ⟨front, whole⟩ := h
  have index : stream.tokens.length - (rest.length + 1) = front.length := by
    have length := congrArg List.length whole
    simp only [List.length_append, List.length_cons, List.length_map] at length
    omega
  have at_index : (stream.tokens.map Token.toLexeme)[front.length]? = some found := by
    rw [← whole, List.getElem?_append_right (Nat.le_refl _), Nat.sub_self]
    rfl
  rw [List.getElem?_map, Option.map_eq_some_iff] at at_index
  obtain ⟨t, token, rfl⟩ := at_index
  rw [index]
  refine ⟨t, token, rfl, ?_⟩
  simp [Fault.toError, index, token]

end Outline

/-- The text of a declaration, or of the front of it, is that of the tokens, and what stands in
front of it is in their leading trivia. -/
structure Decl.MadeOf (d : Decl) (own : List PlacedToken) : Prop where
  leading : d.leading <:+ leadingOf own
  text : d.text = join own

mutual

/-- Two declarations, each made of its own tokens, that differ in nothing but trivia. -/
inductive Decl.Matches : List PlacedToken → List PlacedToken → Decl → Decl → Prop
  | intro {own own' inner inner' : List PlacedToken} {d d' : Decl}
      (lexemes : own.map (·.toLexeme) = own'.map (·.toLexeme)) (made : d.MadeOf own)
      (made' : d'.MadeOf own') (kind : d.kind = d'.kind) (visibility : d.visibility = d'.visibility)
      (key : d.key = d'.key) (body : Block.MatchesOption inner inner' d.block d'.block) :
      Decl.Matches (own ++ inner) (own' ++ inner') d d'

inductive Block.MatchesOption : List PlacedToken → List PlacedToken → Option (Block Decl) →
    Option (Block Decl) → Prop
  | none : Block.MatchesOption [] [] none none
  | some {ts ts' : List PlacedToken} {b b' : Block Decl} (h : Block.Matches ts ts' b b') :
      Block.MatchesOption ts ts' (some b) (some b')

inductive Block.Matches : List PlacedToken → List PlacedToken → Block Decl → Block Decl → Prop
  | intro {is is' as as' ms ms' cs cs' : List PlacedToken} {b b' : Block Decl}
      (braced : b.braced = b'.braced) (imports : Decl.MatchesAll is is' b.imports b'.imports)
      (attributes : Decl.MatchesAll as as' b.attributes b'.attributes)
      (members : Decl.MatchesAll ms ms' b.members b'.members)
      (lexemes : cs.map (·.toLexeme) = cs'.map (·.toLexeme)) (close : b.close = join cs)
      (close' : b'.close = join cs') :
      Block.Matches (is ++ as ++ ms ++ cs) (is' ++ as' ++ ms' ++ cs') b b'

inductive Decl.MatchesAll : List PlacedToken → List PlacedToken → List Decl → List Decl → Prop
  | nil : Decl.MatchesAll [] [] [] []
  | cons {ts ts' us us' : List PlacedToken} {d d' : Decl} {ds ds' : List Decl}
      (first : Decl.Matches ts ts' d d') (others : Decl.MatchesAll us us' ds ds') :
      Decl.MatchesAll (ts ++ us) (ts' ++ us') (d :: ds) (d' :: ds')

end

namespace Outline

variable {ts ts' : List PlacedToken}

theorem take_lexemes (same : ts.map (·.toLexeme) = ts'.map (·.toLexeme)) (n : Nat) :
    (ts.take n).map (·.toLexeme) = (ts'.take n).map (·.toLexeme) := by
  rw [List.map_take, List.map_take, same]

theorem drop_lexemes (same : ts.map (·.toLexeme) = ts'.map (·.toLexeme)) (n : Nat) :
    (ts.drop n).map (·.toLexeme) = (ts'.drop n).map (·.toLexeme) := by
  rw [List.map_drop, List.map_drop, same]

mutual

theorem Entry.build_matches : (e : Entry) → (ts ts' : List PlacedToken) →
    ts.map (·.toLexeme) = ts'.map (·.toLexeme) →
    Decl.Matches (ts.take e.count) (ts'.take e.count) (e.build ts).1 (e.build ts').1
  | ⟨kind, visibility, key, size, body⟩, ts, ts', same => by
    have inner := Body.build_matchesOption body (trailingOf (ts.take size))
      (trailingOf (ts'.take size)) (ts.drop size) (ts'.drop size) (drop_lexemes same size)
    rw [Entry.count, List.take_add, List.take_add]
    cases body with
    | none | some body =>
      exact .intro (take_lexemes same size) ⟨List.suffix_refl _, rfl⟩ ⟨List.suffix_refl _, rfl⟩ rfl
        rfl rfl inner

theorem Body.build_matchesOption : (body : Option (Body Entry)) → (opening opening' : Span) →
    (ts ts' : List PlacedToken) → ts.map (·.toLexeme) = ts'.map (·.toLexeme) →
    Block.MatchesOption (ts.take (Body.countOption body)) (ts'.take (Body.countOption body))
      ((Body.buildOption body opening ts).map Cut.block)
      ((Body.buildOption body opening' ts').map Cut.block)
  | none, _, _, ts, ts', same => by
    simp only [Body.countOption, List.take_zero]
    exact .none
  | some body, opening, opening', ts, ts', same =>
    .some (Body.build_matches body opening opening' ts ts' same)

theorem Body.build_matches : (b : Body Entry) → (opening opening' : Span) →
    (ts ts' : List PlacedToken) → ts.map (·.toLexeme) = ts'.map (·.toLexeme) →
    Block.Matches (ts.take b.count) (ts'.take b.count) (b.build opening ts).block
      (b.build opening' ts').block
  | ⟨braced, imports, attributes, members, closing⟩, opening, opening', ts, ts', same => by
    have afterImports := drop_lexemes same (Entry.countAll imports)
    have afterAttributes := drop_lexemes afterImports (Entry.countAll attributes)
    have afterMembers := drop_lexemes afterAttributes (Entry.countAll members)
    simp only [Body.build, Entry.buildAll_rest, Body.count, List.take_add, ← List.drop_drop]
    exact .intro rfl (Entry.buildAll_matches imports ts ts' same)
      (Entry.buildAll_matches attributes _ _ afterImports)
      (Entry.buildAll_matches members _ _ afterAttributes) (take_lexemes afterMembers closing) rfl
      rfl

theorem Entry.buildAll_matches : (es : List Entry) → (ts ts' : List PlacedToken) →
    ts.map (·.toLexeme) = ts'.map (·.toLexeme) →
    Decl.MatchesAll (ts.take (Entry.countAll es)) (ts'.take (Entry.countAll es))
      (Entry.buildAll es ts).1 (Entry.buildAll es ts').1
  | [], ts, ts', same => by
    simp only [Entry.buildAll, Entry.countAll, List.take_zero]
    exact .nil
  | e :: rest, ts, ts', same => by
    simp only [Entry.buildAll, Entry.build_rest, Entry.countAll, List.take_add]
    exact .cons (Entry.build_matches e ts ts' same)
      (Entry.buildAll_matches rest _ _ (drop_lexemes same e.count))

end

end Outline

section
variable {ts ts' : List PlacedToken}

theorem Decl.Matches.dropLeading {d d' : Decl} (h : Decl.Matches ts ts' d d') (n n' : Nat) :
    Decl.Matches ts ts' { d with leading := d.leading.drop n }
      { d' with leading := d'.leading.drop n' } := by
  obtain ⟨lexemes, made, made', kind, visibility, key, body⟩ := h
  exact .intro lexemes ⟨(List.drop_suffix ..).trans made.leading, made.text⟩
    ⟨(List.drop_suffix ..).trans made'.leading, made'.text⟩ kind visibility key body

variable {ds ds' : List Decl} {b b' : Block Decl}

theorem Decl.MatchesAll.isEmpty (h : Decl.MatchesAll ts ts' ds ds') : ds.isEmpty = ds'.isEmpty := by
  cases h <;> rfl

theorem Decl.MatchesAll.detachFirst (h : Decl.MatchesAll ts ts' ds ds') :
    Decl.MatchesAll ts ts' (Header.detachFirst ds).2 (Header.detachFirst ds').2 := by
  cases h with
  | nil => exact .nil
  | @cons us us' vs vs' d d' ds ds' first others =>
    obtain ⟨n, detached, -⟩ := Header.detachFirst_clean d ds
    obtain ⟨n', detached', -⟩ := Header.detachFirst_clean d' ds'
    rw [detached, detached']
    exact .cons (first.dropLeading n n') others

theorem Block.Matches.closeLeading (h : Block.Matches ts ts' b b') (tail tail' : Span) :
    Block.Matches ts ts' { b with closeLeading := tail } { b' with closeLeading := tail' } := by
  obtain ⟨braced, imports, attributes, members, lexemes, close, close'⟩ := h
  exact .intro braced imports attributes members lexemes close close'

theorem Block.Matches.detach (h : Block.Matches ts ts' b b') :
    Block.Matches ts ts' (Header.detach b).2 (Header.detach b').2 := by
  obtain ⟨braced, imports, attributes, members, lexemes, close, close'⟩ := h
  unfold Header.detach
  rw [imports.isEmpty, attributes.isEmpty]
  split
  · exact .intro braced imports.detachFirst attributes members lexemes close close'
  · split
    · exact .intro braced imports attributes.detachFirst members lexemes close close'
    · exact .intro braced imports attributes members.detachFirst lexemes close close'

end

/-- Whether there is a tree, what it looks like, and which token is at fault if there is none, is a
matter of the lexemes alone. -/
theorem SourceFile.ofTokens_matches {stream stream' : TokenStream}
    (same : stream.tokens.map Token.toLexeme = stream'.tokens.map Token.toLexeme) :
    (∃ file file', ofTokens stream = .ok file ∧ ofTokens stream' = .ok file' ∧
      Block.Matches (place stream.tokens) (place stream'.tokens) file.root file'.root) ∨
    (∃ expected, ofTokens stream = .error (.endOfFile expected stream.finish) ∧
      ofTokens stream' = .error (.endOfFile expected stream'.finish)) ∨
    ∃ (i : Nat) (t t' : Token), stream.tokens[i]? = some t ∧ stream'.tokens[i]? = some t' ∧
      t.toLexeme = t'.toLexeme ∧ ofTokens stream = .error (.unexpected t.text t.position) ∧
      ofTokens stream' = .error (.unexpected t'.text t'.position) := by
  cases read : Outline.ofLexemes (stream.tokens.map Token.toLexeme) with
  | ok outline =>
    have read' := same ▸ read
    refine .inl ⟨_, _, by rw [ofTokens, read], by rw [ofTokens, read'], ?_⟩
    have matched := Outline.Body.build_matches outline [] [] (place stream.tokens)
      (place stream'.tokens) (by rw [place_lexemes, place_lexemes, same])
    rw [List.take_of_length_le, List.take_of_length_le] at matched
    · exact (matched.closeLeading stream.tail stream'.tail).detach
    · simp [place_length, (Outline.ofLexemes_count read').2]
    · simp [place_length, (Outline.ofLexemes_count read).2]
  | error fault =>
    have read' := same ▸ read
    have inside := Outline.read_fault read
    have inside' := Outline.read_fault read'
    have error : ofTokens stream = .error (fault.toError stream) := by simp only [ofTokens, read]
    have error' : ofTokens stream' = .error (fault.toError stream') := by
      simp only [ofTokens, read']
    cases fault with
    | endOfFile expected => exact .inr (.inl ⟨expected, error, error'⟩)
    | unexpected found rest =>
      obtain ⟨t, token, lexeme, named⟩ := Outline.Fault.toError_unexpected inside
      obtain ⟨t', token', lexeme', named'⟩ := Outline.Fault.toError_unexpected inside'
      have length : stream.tokens.length = stream'.tokens.length := by
        simpa using congrArg List.length same
      rw [← length] at token'
      exact .inr (.inr ⟨_, t, t', token, token', lexeme.trans lexeme'.symm, named ▸ error,
        named' ▸ error'⟩)

theorem SourceFile.ofTokens_matches_class : ∃ stream stream',
    tokenize "class C\x7bint x;\x7d".toList [] = .ok stream ∧
    tokenize "// c\n\nclass C\n\x7b int\tx ; \x7d\n".toList [] = .ok stream' ∧
    stream.tokens.map Token.toLexeme = stream'.tokens.map Token.toLexeme ∧
    ∃ file file', ofTokens stream = .ok file ∧ ofTokens stream' = .ok file' ∧
      Block.Matches (place stream.tokens) (place stream'.tokens) file.root file'.root := by
  have runs : (tokenize "class C\x7bint x;\x7d".toList []).toOption.bind (fun stream =>
      (tokenize "// c\n\nclass C\n\x7b int\tx ; \x7d\n".toList []).toOption.map fun stream' =>
        (decide (stream.tokens.map Token.toLexeme = stream'.tokens.map Token.toLexeme),
          (ofTokens stream).isOk)) = some (true, true) := by
    decide +kernel
  obtain ⟨stream, first, others⟩ := Option.bind_eq_some_iff.mp runs
  obtain ⟨stream', second, known⟩ := Option.map_eq_some_iff.mp others
  obtain ⟨same, read⟩ := Prod.mk.inj known
  have same := of_decide_eq_true same
  refine ⟨stream, stream', eq_ok_of_toOption first, eq_ok_of_toOption second, same, ?_⟩
  rcases ofTokens_matches same with trees | ⟨expected, ended, -⟩ | ⟨i, t, t', -, -, -, fault, -⟩
  · exact trees
  · rw [ended] at read
    cases read
  · rw [fault] at read
    cases read

end CSharpTidy
