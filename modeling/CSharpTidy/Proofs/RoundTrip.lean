import CSharpTidy.Proofs.OutlineSize
import CSharpTidy.Proofs.TokenText
import CSharpTidy.Tree.Print

/- Reading a text and printing its tree gives the text back. A declaration is cut off the front of
   the tokens and prints exactly the tokens that are gone, whatever the outline says; that nothing
   is left over in the end is what the counting of lexemes gives. -/
namespace CSharpTidy

namespace PlacedToken

def textAll (ts : List PlacedToken) : String :=
  Token.textAll (ts.map PlacedToken.toToken)

@[simp] theorem textAll_nil : textAll [] = "" := rfl

theorem textAll_cons (t : PlacedToken) (ts : List PlacedToken) :
    textAll (t :: ts) = Span.text t.leading ++ t.text ++ Span.text t.trailing ++ textAll ts := rfl

theorem textAll_append (as bs : List PlacedToken) :
    textAll (as ++ bs) = textAll as ++ textAll bs := by
  induction as with
  | nil => simp
  | cons t as ih => simp only [List.cons_append, textAll_cons, ih, String.append_assoc]

theorem textAll_take_drop (n : Nat) (ts : List PlacedToken) :
    textAll (ts.take n) ++ textAll (ts.drop n) = textAll ts := by
  rw [← textAll_append, List.take_append_drop]

theorem leading_join_trailing (ts : List PlacedToken) :
    Span.text (leadingOf ts) ++ join ts ++ Span.text (trailingOf ts) = textAll ts := by
  cases ts with
  | nil => rfl
  | cons t rest =>
    induction rest generalizing t with
    | nil => simp [leadingOf, trailingOf, join, textAll_cons]
    | cons next rest ih =>
      have tail := ih next
      simp only [leadingOf, trailingOf, List.head?_cons, List.getLast?_cons_cons] at tail ⊢
      rw [textAll_cons, ← tail]
      simp only [join, String.append_assoc]

theorem outer_text (n : Nat) (ts : List PlacedToken) :
    Span.text (leadingOf (ts.take n)) ++ join (ts.take n) ++ Span.text (trailingOf (ts.take n)) ++
      textAll (ts.drop n) = textAll ts := by
  rw [leading_join_trailing, textAll_take_drop]

theorem placeFrom_toToken (lineStart : Bool) (indent : String) (ts : List Token) :
    (placeFrom lineStart indent ts).map toToken = ts := by
  induction ts generalizing lineStart indent with
  | nil => rfl
  | cons t rest ih => simp only [placeFrom, List.map_cons, ih]

theorem place_toToken (ts : List Token) : (place ts).map toToken = ts :=
  placeFrom_toToken ..

theorem mem_of_mem_place {ts : List Token} {t : PlacedToken} (mem : t ∈ place ts) :
    t.toToken ∈ ts :=
  place_toToken ts ▸ List.mem_map_of_mem mem

theorem place_length (ts : List Token) : (place ts).length = ts.length := by
  rw [← List.length_map toToken, place_toToken]

theorem place_lexemes (ts : List Token) :
    (place ts).map (·.toLexeme) = ts.map Token.toLexeme := by
  have lexemes := congrArg (List.map Token.toLexeme) (place_toToken ts)
  rwa [List.map_map] at lexemes

theorem place_textAll (ts : List Token) : textAll (place ts) = Token.textAll ts := by
  rw [textAll, place_toToken]

end PlacedToken

open PlacedToken

theorem Decl.print_eq (d : Decl) :
    d.print = Span.text d.leading ++ d.text ++ Block.printOption d.block ++ Span.text d.trailing := by
  cases d
  rfl

theorem Block.print_eq (b : Block Decl) :
    b.print = Span.text b.openTrailing ++ Decl.printAll b.imports ++ Decl.printAll b.attributes ++
      Decl.printAll b.members ++ Span.text b.closeLeading ++ b.close := by
  cases b
  rfl

namespace Outline

mutual

theorem Entry.build_rest : (e : Entry) → (ts : List PlacedToken) →
    (e.build ts).2 = ts.drop e.count
  | ⟨kind, visibility, key, size, none⟩, ts => by
    simp [Entry.build, Body.buildOption, Entry.count, Body.countOption]
  | ⟨kind, visibility, key, size, some body⟩, ts => by
    simp only [Entry.build, Body.buildOption, Entry.count, Body.countOption]
    rw [Body.build_rest, List.drop_drop]

theorem Body.build_rest : (b : Body Entry) → (openTrailing : Span) → (ts : List PlacedToken) →
    (b.build openTrailing ts).rest = ts.drop b.count
  | ⟨braced, imports, attributes, members, closing⟩, openTrailing, ts => by
    simp only [Body.build, Body.count]
    rw [Entry.buildAll_rest members, Entry.buildAll_rest attributes, Entry.buildAll_rest imports]
    simp only [List.drop_drop, Nat.add_assoc]

theorem Entry.buildAll_rest : (es : List Entry) → (ts : List PlacedToken) →
    (Entry.buildAll es ts).2 = ts.drop (Entry.countAll es)
  | [], ts => rfl
  | e :: rest, ts => by
    simp only [Entry.buildAll, Entry.countAll]
    rw [Entry.buildAll_rest rest, Entry.build_rest e, List.drop_drop]

end

mutual

theorem Entry.build_print : (e : Entry) → (ts : List PlacedToken) →
    (e.build ts).1.print ++ textAll (e.build ts).2 = textAll ts
  | ⟨kind, visibility, key, size, none⟩, ts => by
    simp only [Entry.build, Body.buildOption, Decl.print, Block.printOption, String.append_empty]
    rw [leading_join_trailing, textAll_take_drop]
  | ⟨kind, visibility, key, size, some body⟩, ts => by
    have inner := Body.build_print body (trailingOf (ts.take size)) (ts.drop size)
    have own := outer_text size ts
    simp only [String.append_assoc] at inner own
    simp only [Entry.build, Body.buildOption, Decl.print, Block.printOption, String.append_assoc]
    rw [inner, own]

theorem Body.build_print : (b : Body Entry) → (openTrailing : Span) → (ts : List PlacedToken) →
    (b.build openTrailing ts).block.print ++ Span.text (b.build openTrailing ts).trailing ++
      textAll (b.build openTrailing ts).rest = Span.text openTrailing ++ textAll ts
  | ⟨braced, imports, attributes, members, closing⟩, openTrailing, ts => by
    have importsPrint := Entry.buildAll_print imports ts
    have attributesPrint := Entry.buildAll_print attributes (Entry.buildAll imports ts).2
    have membersPrint := Entry.buildAll_print members
      (Entry.buildAll attributes (Entry.buildAll imports ts).2).2
    have closePrint := outer_text closing
      (Entry.buildAll members (Entry.buildAll attributes (Entry.buildAll imports ts).2).2).2
    simp only [String.append_assoc] at closePrint
    simp only [Body.build, Block.print, String.append_assoc]
    rw [closePrint, membersPrint, attributesPrint, importsPrint]

theorem Entry.buildAll_print : (es : List Entry) → (ts : List PlacedToken) →
    Decl.printAll (Entry.buildAll es ts).1 ++ textAll (Entry.buildAll es ts).2 = textAll ts
  | [], ts => String.empty_append
  | e :: rest, ts => by
    simp only [Entry.buildAll, Decl.printAll]
    rw [String.append_assoc, Entry.buildAll_print rest, Entry.build_print e]

end

end Outline

namespace Header

theorem detachFirst_print (ds : List Decl) :
    Span.text (detachFirst ds).1 ++ Decl.printAll (detachFirst ds).2 = Decl.printAll ds := by
  fun_cases detachFirst ds with
  | case1 => rfl
  | case2 => exact String.empty_append
  | case3 d rest n _ =>
    simp only [Decl.printAll, Decl.print_eq, ← String.append_assoc]
    rw [← Span.text_append, List.take_append_drop]

theorem detach_print {root : Block Decl} (unopened : root.openTrailing = []) :
    Span.text (detach root).1 ++ (detach root).2.print = root.print := by
  unfold detach
  split
  · simp only [Block.print_eq, unopened, Span.text_nil, String.empty_append,
      ← String.append_assoc, detachFirst_print]
  · rename_i noImports
    have noImports : root.imports = [] := by simpa using noImports
    split
    · simp only [Block.print_eq, unopened, noImports, Span.text_nil, Decl.printAll,
        String.empty_append, ← String.append_assoc, detachFirst_print]
    · rename_i noAttributes
      have noAttributes : root.attributes = [] := by simpa using noAttributes
      simp only [Block.print_eq, unopened, noImports, noAttributes, Span.text_nil, Decl.printAll,
        String.empty_append, ← String.append_assoc, detachFirst_print]

end Header

variable {ε α : Type}

theorem eq_ok_of_toOption {x : Except ε α} {a : α} (h : x.toOption = some a) : x = .ok a := by
  cases x with
  | error e => cases h
  | ok b => exact congrArg Except.ok (Option.some.inj h)

theorem ok_of_isOk {e : Except ε α} (h : e.isOk) : ∃ a, e = .ok a := by
  cases e with
  | error => cases h
  | ok a => exact ⟨a, rfl⟩

namespace SourceFile

open Outline

variable {file : SourceFile} {stream : TokenStream} {symbols : List String} {outline : Body Entry}
  {source : List Char}

theorem build_unclosed (unclosed : outline.closing = 0) (openTrailing : Span)
    (ts : List PlacedToken) : (outline.build openTrailing ts).block.closeLeading = [] ∧
      (outline.build openTrailing ts).block.close = "" ∧
      (outline.build openTrailing ts).trailing = [] := by
  cases outline
  cases unclosed
  exact ⟨rfl, rfl, rfl⟩

theorem build_openTrailing (outline : Body Entry) (openTrailing : Span) (ts : List PlacedToken) :
    (outline.build openTrailing ts).block.openTrailing = openTrailing := by
  cases outline
  rfl

/-- The outline takes all tokens, so what is cut off them prints all of their text. -/
theorem cut_print (h : ofLexemes (stream.tokens.map Token.toLexeme) = .ok outline) :
    Block.print { (outline.build [] (place stream.tokens)).block with closeLeading := stream.tail } =
      stream.text := by
  obtain ⟨unclosed, counted⟩ := ofLexemes_count h
  obtain ⟨noLeading, noClose, noTrailing⟩ := build_unclosed unclosed [] (place stream.tokens)
  have nothingLeft : (outline.build [] (place stream.tokens)).rest = [] := by
    rw [Body.build_rest, counted, List.length_map, ← place_length, List.drop_length]
  have printed := outline.build_print [] (place stream.tokens)
  rw [nothingLeft, noTrailing, place_textAll] at printed
  simp only [Block.print_eq, noLeading, noClose, Span.text_nil, textAll_nil, String.append_empty,
    String.empty_append] at printed
  rw [TokenStream.text, ← printed]
  simp only [Block.print_eq, noClose, String.append_empty]

theorem ofTokens_outline (h : ofTokens stream = .ok file) :
    ∃ outline, ofLexemes (stream.tokens.map Token.toLexeme) = .ok outline ∧
      file = ⟨false, (Header.detach { (outline.build [] (place stream.tokens)).block with
          closeLeading := stream.tail }).1,
        (Header.detach { (outline.build [] (place stream.tokens)).block with
          closeLeading := stream.tail }).2⟩ := by
  unfold ofTokens at h
  split at h
  · cases h
  · rename_i outline read
    cases h
    exact ⟨outline, read, rfl⟩

theorem ofTokens_print (h : ofTokens stream = .ok file) :
    file.byteOrderMark = false ∧ file.print = stream.text := by
  obtain ⟨outline, read, rfl⟩ := ofTokens_outline h
  have unopened := build_openTrailing outline [] (place stream.tokens)
  refine ⟨rfl, ?_⟩
  rw [← cut_print read, ← Header.detach_print (by exact unopened)]
  simp only [SourceFile.print, Bool.false_eq_true, if_false, String.empty_append]

theorem mark_append (source : List Char) :
    (if source.head? == some CSharpTidy.byteOrderMark then
      String.singleton CSharpTidy.byteOrderMark else "") ++
      String.ofList (if source.head? == some CSharpTidy.byteOrderMark then source.tail else source) =
        String.ofList source := by
  by_cases marked : source.head? = some CSharpTidy.byteOrderMark
  · obtain ⟨rest, rfl⟩ := List.head?_eq_some_iff.mp marked
    simp only [List.head?_cons, BEq.rfl, if_true, List.tail_cons]
    rw [String.singleton_eq_ofList, ← String.ofList_append, List.singleton_append]
  · simp [marked]

/-- The printed tree without the byte order mark. -/
def body (file : SourceFile) : String :=
  Span.text file.header ++ file.root.print

theorem parse_stream (h : parse source symbols = .ok file) : ∃ stream inner,
      tokenize (if source.head? == some CSharpTidy.byteOrderMark then source.tail else source)
        symbols = .ok stream ∧ ofTokens stream = .ok inner ∧
      file = { inner with byteOrderMark := source.head? == some CSharpTidy.byteOrderMark } := by
  unfold parse at h
  simp only at h
  split at h
  · cases h
  · rename_i stream tokenized
    split at h
    · cases h
    · rename_i inner built
      cases h
      exact ⟨stream, inner, tokenized, built, rfl⟩

theorem parse_body (h : parse source symbols = .ok file) :
    file.byteOrderMark = (source.head? == some CSharpTidy.byteOrderMark) ∧
      file.body = String.ofList (if file.byteOrderMark then source.tail else source) := by
  obtain ⟨stream, read, lexed, built, rfl⟩ := parse_stream h
  obtain ⟨unmarked, printed⟩ := ofTokens_print built
  rw [tokenize_text lexed] at printed
  simp only [SourceFile.print, unmarked, Bool.false_eq_true, if_false,
    String.empty_append] at printed
  exact ⟨rfl, printed⟩

/-- Reading a text and printing its tree gives the text back, character for character. -/
theorem print_of_parse {source : List Char} {symbols : List String} {file : SourceFile}
    (h : parse source symbols = .ok file) : file.print = String.ofList source := by
  obtain ⟨marked, printed⟩ := parse_body h
  rw [SourceFile.print, String.append_assoc, ← body, printed, marked]
  exact mark_append source

theorem parse_marked_file :
    (parse "\ufeff// h\n\nusing A;\nnamespace N;\nclass C \x7b\n#if X\n int a;\n#endif\n int b; \x7d;".toList
      []).isOk := by
  decide +kernel

theorem print_of_parse_marked_file :
    ∃ file, parse "\ufeff// h\n\nusing A;\nnamespace N;\nclass C \x7b\n#if X\n int a;\n#endif\n int b; \x7d;".toList
      [] = .ok file ∧
      file.print =
        "\ufeff// h\n\nusing A;\nnamespace N;\nclass C \x7b\n#if X\n int a;\n#endif\n int b; \x7d;" := by
  obtain ⟨file, h⟩ := ok_of_isOk parse_marked_file
  exact ⟨file, h, print_of_parse h⟩

end SourceFile

end CSharpTidy
