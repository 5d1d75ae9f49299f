import CSharpTidy.Layout.LineEnding
import CSharpTidy.Layout.Spacing
import CSharpTidy.Order.Arrange
import CSharpTidy.Text.Blank
import CSharpTidy.Tree.Parse
import CSharpTidy.Tree.Print

/- Organizing one text: read the tree, arrange it, space it, print it. The result has no white
   space at its ends but one line ending. -/
namespace CSharpTidy

structure Options where
  standardPrefixes : List String := ["System"]
  lineEnding : LineEnding := .auto
  definedSymbols : List String := []
  deriving DecidableEq, Repr

def withoutByteOrderMark : List Char → List Char
  | [] => []
  | c :: rest => if c == byteOrderMark then rest else c :: rest

def organize (options : Options) (source : List Char) : Except ParseError (List Char) :=
  match SourceFile.parse source options.definedSymbols with
  | .error e => .error e
  | .ok file =>
      let ending := options.lineEnding.resolve source
      let tidy := (file.reorganize options.standardPrefixes).normalize ending
      let body := Text.trim (withoutByteOrderMark tidy.print.toList)
      .ok ((if tidy.byteOrderMark then [byteOrderMark] else []) ++ body ++ ending.toList)

end CSharpTidy
