import CSharpTidy.Proofs.HeaderCut
import CSharpTidy.Proofs.IndexedBody

/- The tree of a text with every difference, index, slice and loop of the way checked. The checks
   hold for every text, so that nothing but a fault of the text ends a run early. -/
namespace CSharpTidy

open Checked

namespace Indexed

open Outline PlacedToken

theorem detachFirst_eq (ds : List Decl) : detachFirst ds = .ok (Header.detachFirst ds) := by
  cases ds with
  | nil => rfl
  | cons d rest =>
    rw [detachFirst, Header.detachFirst]
    cases split : Header.split? d.leading with
    | none => rfl
    | some n =>
      have inside := Nat.le_of_lt (Header.split_eq_some_iff.mp split).1.lt_length
      have left : d.leading.extract n d.leading.length = d.leading.drop n := by
        rw [List.extract_eq_take_drop, ← List.length_drop, List.take_length]
      simp only [slice_of_le (Nat.zero_le n) inside, slice_of_le inside (Nat.le_refl _), ok_bind,
        left]
      rfl

theorem detach_eq (root : Block Decl) : detach root = .ok (Header.detach root) := by
  simp only [detach, Header.detach, detachFirst_eq, ok_bind]
  split
  · rfl
  · split <;> rfl

theorem leadingAt_length (s : TokenStream) : leadingAt s s.tokens.length = .ok s.tail := by
  rw [leadingAt, cell_eq, List.getElem?_eq_none (Nat.le_refl _)]
  rfl

theorem ofTokens_eq {s : TokenStream} (regular : ∀ t ∈ s.tokens, t.toLexeme.Regular) :
    ofTokens s = ofExcept (SourceFile.ofTokens s) := by
  have body := blockBody_agrees regular (Built.empty s 0 .compilationUnit false []) (Nat.zero_le _)
  change BodyAgrees _ _ _ _ _ (blockBody s .compilationUnit {} 0) at body
  rw [ofTokens, SourceFile.ofTokens, ofLexemes]
  generalize blockBody s .compilationUnit {} 0 = run at body ⊢
  cases body with
  | @fault f read =>
    have failed : Outline.read (.empty .compilationUnit false) [] (s.tokens.map Token.toLexeme) =
      .error f := read []
    rw [failed]
    rfl
  | @block current' block next built same order complete read =>
    have unbraced : block.braced = false := same
    rw [Complete, if_neg (by rw [unbraced]; exact Bool.false_ne_true)] at complete
    subst complete
    have ended : ahead s s.tokens.length = [] := by
      rw [← List.length_eq_zero_iff, length_ahead, Nat.sub_self]
    have whole : Outline.read (.empty .compilationUnit false) [] (s.tokens.map Token.toLexeme) =
        .ok current'.body := by
      refine (read []).trans ?_
      rw [ended, Outline.read.eq_def]
      simp only [← built.braced_eq, unbraced, Bool.false_eq_true, if_false]
    have cut := built.built
    rw [List.drop_zero] at cut
    rw [whole, ok_bind, leadingAt_length, ok_bind, detach_eq, ok_bind]
    simp only [cut]
    rfl

def parse (source : List Char) (symbols : List String) : Check SourceFile := do
  let marked := source.head? == some CSharpTidy.byteOrderMark
  let stream ← ofExcept (tokenize (if marked then source.tail else source) symbols)
  let file ← ofTokens stream
  return { file with byteOrderMark := marked }

end Indexed

theorem Cursor.tokens_regular {c : Cursor} {s : TokenStream} (h : c.tokens = .ok s) :
    ∀ t ∈ s.tokens, t.toLexeme.Regular :=
  tokens_forall h fun _ _ found _ word text => lexeme_word found word (by grind)

namespace Indexed

theorem parse_eq (source : List Char) (symbols : List String) :
    parse source symbols = ofExcept (SourceFile.parse source symbols) := by
  simp only [parse, SourceFile.parse]
  cases tokenized : tokenize
      (if source.head? == some CSharpTidy.byteOrderMark then source.tail else source) symbols with
  | error e => rfl
  | ok s =>
    rw [ofExcept_ok, ok_bind, ofTokens_eq (Cursor.tokens_regular tokenized)]
    simp only
    cases SourceFile.ofTokens s <;> rfl

end Indexed

/-- A word that is written as an angle bracket opens a list of type arguments and is then not counted,
so that the first closer is one too many. -/
theorem classify_angle_word :
    Indexed.classify .typeBody [⟨.word, "a"⟩, ⟨.word, "<"⟩, ⟨.punct, ">"⟩] = .error .underflow := by
  decide +kernel

/-- No difference, index or slice is out of range and no loop is stopped on the way from any text to
its tree, nor when a member is told from any slice of its tokens. For other lexemes it is enough that
no word is written as an angle bracket, and outside of types nothing is asked of them. -/
theorem parse_in_range (source : List Char) (symbols : List String) :
    Indexed.parse source symbols = ofExcept (SourceFile.parse source symbols) ∧
    (∀ s, tokenize source symbols = .ok s → ∀ scope own, own <:+: s.tokens.map Token.toLexeme →
      Indexed.classify scope own = .ok (Member.classify scope own)) ∧
    ∀ scope (ls : List Lexeme), (scope = .typeBody → ∀ l ∈ ls, l.Regular) →
      Indexed.classify scope ls = .ok (Member.classify scope ls) := by
  refine ⟨Indexed.parse_eq source symbols, ?_, fun scope _ => Indexed.classify_eq scope⟩
  intro s tokenized scope own slice
  apply Indexed.classify_eq
  intro _ l mem
  obtain ⟨t, token, rfl⟩ := List.mem_map.mp (slice.subset mem)
  exact Cursor.tokens_regular tokenized t token

/-- The type arguments of `A` are closed twice, and the name behind them is missing. -/
theorem parse_in_range_angles :
    let own : List Lexeme := [⟨.word, "A"⟩, ⟨.punct, "<"⟩, ⟨.punct, ">"⟩, ⟨.punct, ">"⟩]
    let tokens : List Token := [⟨⟨.word, "A"⟩, [], [], ⟨1, 1⟩⟩, ⟨⟨.punct, "<"⟩, [], [], ⟨1, 2⟩⟩,
      ⟨⟨.punct, ">"⟩, [], [], ⟨1, 3⟩⟩, ⟨⟨.punct, ">"⟩, [], [], ⟨1, 4⟩⟩]
    tokenize "A<>>".toList [] = .ok ⟨tokens, [], ⟨1, 5⟩⟩ ∧
      Indexed.classify .typeBody own = .ok (Member.classify .typeBody own) ∧
      Indexed.classify .typeBody own.tail = .ok (Member.classify .typeBody own.tail) := by
  intro own tokens
  have tokenized : tokenize "A<>>".toList [] = .ok ⟨tokens, [], ⟨1, 5⟩⟩ := by decide +kernel
  obtain ⟨-, slices, regular⟩ := parse_in_range "A<>>".toList []
  exact ⟨tokenized, slices _ tokenized .typeBody own (List.infix_refl _),
    regular .typeBody own.tail fun _ => by simp [own, Lexeme.Regular, Lexeme.isWord]⟩

end CSharpTidy
