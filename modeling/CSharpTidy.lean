import CSharpTidy.Batch.Duration
import CSharpTidy.Batch.Report
import CSharpTidy.Batch.Run
import CSharpTidy.Command.Arguments
import CSharpTidy.Command.Program
import CSharpTidy.Conditional.Condition
import CSharpTidy.Conditional.DirectiveLine
import CSharpTidy.Conditional.State
import CSharpTidy.Files.Collect
import CSharpTidy.Files.Fault
import CSharpTidy.Files.FileSystem
import CSharpTidy.Files.Glob
import CSharpTidy.Files.Path
import CSharpTidy.Layout.BlankLines
import CSharpTidy.Layout.LineEnding
import CSharpTidy.Layout.Spacing
import CSharpTidy.Main
import CSharpTidy.Order.Arrange
import CSharpTidy.Order.Guard
import CSharpTidy.Order.Import
import CSharpTidy.Order.Member
import CSharpTidy.Order.Region
import CSharpTidy.Organize.Source
import CSharpTidy.Organize.Text
import CSharpTidy.Proofs.OutlineSize
import CSharpTidy.Proofs.Preservation
import CSharpTidy.Proofs.RoundTrip
import CSharpTidy.Proofs.SpanContent
import CSharpTidy.Proofs.TokenText
import CSharpTidy.Settings.Basic
import CSharpTidy.Settings.ConfigFile
import CSharpTidy.Settings.Discovery
import CSharpTidy.Settings.FileDirective
import CSharpTidy.Source.ParseError
import CSharpTidy.Source.Position
import CSharpTidy.Source.Trivia
import CSharpTidy.Text.Blank
import CSharpTidy.Text.Letter
import CSharpTidy.Text.Numeral
import CSharpTidy.Text.Ranges
import CSharpTidy.Text.Split
import CSharpTidy.Token.Basic
import CSharpTidy.Token.Lexeme
import CSharpTidy.Token.Literal
import CSharpTidy.Token.Stream
import CSharpTidy.Toml.Document
import CSharpTidy.Toml.Scalar
import CSharpTidy.Toml.Table
import CSharpTidy.Toml.Text
import CSharpTidy.Tree.Decl
import CSharpTidy.Tree.Group
import CSharpTidy.Tree.Header
import CSharpTidy.Tree.MapBlocks
import CSharpTidy.Tree.Member
import CSharpTidy.Tree.Outline
import CSharpTidy.Tree.Parse
import CSharpTidy.Tree.Print
import CSharpTidy.Proofs.Ordering
import CSharpTidy.Proofs.LexedSpans
import CSharpTidy.Proofs.Parts
import CSharpTidy.Proofs.OutlineShape
import CSharpTidy.Proofs.ReadParts
import CSharpTidy.Proofs.TrimmedText
import CSharpTidy.Proofs.SpacedParts
import CSharpTidy.Proofs.SecondRun
import CSharpTidy.Proofs.Reader
import CSharpTidy.Proofs.Trace
import CSharpTidy.Proofs.TracedTokens
import CSharpTidy.Proofs.ScanLocality
import CSharpTidy.Proofs.DirectiveSides
import CSharpTidy.Proofs.TidyTwice
import CSharpTidy.Proofs.LexedTree
import CSharpTidy.Proofs.VisibleText
import CSharpTidy.Proofs.LexerRun
import CSharpTidy.Proofs.LineLocality
import CSharpTidy.Proofs.DeadBranch
import CSharpTidy.Proofs.ConditionalRun
import CSharpTidy.Proofs.MemberGroups
import CSharpTidy.Proofs.TreeCut
import CSharpTidy.Proofs.SolidEnds
import CSharpTidy.Proofs.BlankLineShape
import CSharpTidy.Proofs.DirectiveWords
import CSharpTidy.Proofs.FlowEnd
import CSharpTidy.Proofs.MovedDecls
import CSharpTidy.Proofs.OutlineEnds
import CSharpTidy.Proofs.TextPieces
import CSharpTidy.Proofs.UniformEndings
import CSharpTidy.Proofs.Framing
import CSharpTidy.Proofs.BraceBalance
import CSharpTidy.Proofs.LayoutIndependence
import CSharpTidy.Proofs.SourceRows
import CSharpTidy.Proofs.RegionNesting
import CSharpTidy.Proofs.OtherSymbols
import CSharpTidy.Proofs.StableOrder
import CSharpTidy.Proofs.NearestSettings
import CSharpTidy.Proofs.BatchRuns
import CSharpTidy.Proofs.CommentDirective
import CSharpTidy.Proofs.ConditionGrammar
import CSharpTidy.Proofs.TypeSyntax
import CSharpTidy.Proofs.MemberSyntax
import CSharpTidy.Proofs.UsingDeclarations
import CSharpTidy.Proofs.DetachedHeader
import CSharpTidy.Proofs.LiteralGrammar
import CSharpTidy.Proofs.TokenPositions
import CSharpTidy.Proofs.StreamShape
import CSharpTidy.Proofs.CollectedFiles
import CSharpTidy.Proofs.StandardNamespaces
import CSharpTidy.Proofs.RegionLines
import CSharpTidy.Proofs.FrontEndProgress
