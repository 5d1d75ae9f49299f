import CSharpTidy.Token.Stream
import CSharpTidy.Tree.Header
import CSharpTidy.Tree.Outline

/- From text to tree: the outline of the tokens says how many of them each declaration takes, and
   the declarations are cut off in order. -/
namespace CSharpTidy

def Span.indentation (leading : Span) : String :=
  let line := (leading.reverse.takeWhile fun t => !t.breaksLine).reverse
  Span.text (line.takeWhile Trivia.isWhitespace)

/-- A token with the indentation of its line, unless it is the first token there. -/
structure PlacedToken extends Token where
  lineIndent : Option String

namespace PlacedToken

/-- `lineStart` says that the tokens so far end with a line break, and `indent` is the
indentation of the line that they end on. -/
def placeFrom (lineStart : Bool) (indent : String) : List Token → List PlacedToken
  | [] => []
  | t :: rest =>
      let first := lineStart || Span.breaksLine t.leading
      let indent' := if first then Span.indentation t.leading else indent
      ⟨t, if first then none else some indent⟩ ::
        placeFrom (Span.breaksLine t.trailing) indent' rest

def place (ts : List Token) : List PlacedToken :=
  placeFrom true "" ts

def join : List PlacedToken → String
  | [] => ""
  | [t] => t.text
  | t :: next :: rest =>
      t.text ++ Span.text t.trailing ++ Span.text next.leading ++ join (next :: rest)

def leadingOf (ts : List PlacedToken) : Span :=
  match ts.head? with
  | some t => t.leading
  | none => []

def trailingOf (ts : List PlacedToken) : Span :=
  match ts.getLast? with
  | some t => t.trailing
  | none => []

end PlacedToken

open PlacedToken

namespace Outline

/-- A body cut off the front of the tokens, with the trivia behind its closing text and the
tokens that are left. -/
structure Cut where
  block : Block Decl
  trailing : Span
  rest : List PlacedToken

mutual

def Entry.build : Entry → List PlacedToken → Decl × List PlacedToken
  | ⟨kind, visibility, key, size, body⟩, ts =>
      let own := ts.take size
      let decl : Decl :=
        { kind := kind, visibility := visibility, key := key, leading := leadingOf own,
          text := join own, trailing := trailingOf own,
          lineIndent := own.head?.bind PlacedToken.lineIndent }
      match Body.buildOption body decl.trailing (ts.drop size) with
      | none => (decl, ts.drop size)
      | some cut => ({ decl with block := some cut.block, trailing := cut.trailing }, cut.rest)

def Body.buildOption : Option (Body Entry) → Span → List PlacedToken → Option Cut
  | none, _, _ => none
  | some body, openTrailing, ts => some (Body.build body openTrailing ts)

def Body.build : Body Entry → Span → List PlacedToken → Cut
  | ⟨braced, imports, attributes, members, closing⟩, openTrailing, ts =>
      let importCut := Entry.buildAll imports ts
      let attributeCut := Entry.buildAll attributes importCut.2
      let memberCut := Entry.buildAll members attributeCut.2
      let close := memberCut.2.take closing
      ⟨⟨braced, openTrailing, importCut.1, attributeCut.1, memberCut.1, leadingOf close,
        join close⟩, trailingOf close, memberCut.2.drop closing⟩

def Entry.buildAll : List Entry → List PlacedToken → List Decl × List PlacedToken
  | [], ts => ([], ts)
  | e :: rest, ts =>
      let first := Entry.build e ts
      let others := Entry.buildAll rest first.2
      (first.1 :: others.1, others.2)

end

def Fault.toError (stream : TokenStream) : Fault → ParseError
  | .endOfFile expected => .endOfFile expected stream.finish
  | .unexpected found rest =>
      let index := stream.tokens.length - (rest.length + 1)
      .unexpected found.text ((stream.tokens[index]?.map Token.position).getD stream.finish)

end Outline

namespace SourceFile

def ofTokens (stream : TokenStream) : Except ParseError SourceFile :=
  match Outline.ofLexemes (stream.tokens.map Token.toLexeme) with
  | .error fault => .error (fault.toError stream)
  | .ok outline =>
      let cut := outline.build [] (place stream.tokens)
      let detached := Header.detach { cut.block with closeLeading := stream.tail }
      .ok ⟨false, detached.1, detached.2⟩

/-- The tree of a text. A byte order mark belongs to the file, not to its first declaration. -/
def parse (source : List Char) (symbols : List String) : Except ParseError SourceFile :=
  let marked := source.head? == some CSharpTidy.byteOrderMark
  match tokenize (if marked then source.tail else source) symbols with
  | .error e => .error e
  | .ok stream =>
      match ofTokens stream with
      | .error e => .error e
      | .ok file => .ok { file with byteOrderMark := marked }

end SourceFile

end CSharpTidy
