import CSharpTidy.Tree.Decl

/- Blank lines at the ends of a span. Only the given span is looked at, so the trivia of a
   neighbour are never disturbed. -/
namespace CSharpTidy

def Trivia.lineEnd (ending : String) : Trivia :=
  ⟨.endOfLine, ending⟩

namespace Span

/-- Drops blank lines in front of the first content and keeps the indentation of its line. Of a
span without content only a last piece of indentation stays. -/
def stripLeading (span : Span) : Span :=
  match span.dropWhile Trivia.isBlank with
  | [] => (span.getLast?.filter Trivia.isWhitespace).toList
  | content =>
      ((span.takeWhile Trivia.isBlank).reverse.takeWhile Trivia.isWhitespace).reverse ++ content

/-- Drops blank trivia behind the last content and ends the line once. -/
def stripTrailing (ending : String) (span : Span) : Span :=
  (span.reverse.dropWhile Trivia.isBlank).reverse ++ [.lineEnd ending]

def oneLeading (ending : String) (span : Span) : Span :=
  .lineEnd ending :: stripLeading span

def oneTrailing (ending : String) (span : Span) : Span :=
  stripTrailing ending span ++ [.lineEnd ending]

end Span

namespace Decl

def withoutLeadingBlank (d : Decl) : Decl :=
  { d with leading := Span.stripLeading d.leading }

def withoutTrailingBlank (ending : String) (d : Decl) : Decl :=
  { d with trailing := Span.stripTrailing ending d.trailing }

def withoutBlank (ending : String) (d : Decl) : Decl :=
  d.withoutLeadingBlank.withoutTrailingBlank ending

def withLeadingBlank (ending : String) (d : Decl) : Decl :=
  { d with leading := Span.oneLeading ending d.leading }

def withTrailingBlank (ending : String) (d : Decl) : Decl :=
  { d with trailing := Span.oneTrailing ending d.trailing }

end Decl

end CSharpTidy
