import StubMerge.Text.Blank
import StubMerge.Text.Position
import StubMerge.Token.Basic
import StubMerge.Token.Scanner
import StubMerge.Token.Layout
import StubMerge.Declaration.Signature
import StubMerge.Declaration.Kind
import StubMerge.Declaration.Outline
import StubMerge.Declaration.Print
import StubMerge.Text.Split
import StubMerge.Reading.Diagnostic
import StubMerge.Reading.Cursor
import StubMerge.Reading.Capture
import StubMerge.Reading.SignatureBlock
import StubMerge.Reading.MethodHeader
import StubMerge.Reading.Statement
import StubMerge.Reading.File
import StubMerge.Data.AppendNew
import StubMerge.Forest.Basic
import StubMerge.Forest.Edit
import StubMerge.Forest.Index
import StubMerge.Merge.Agreement
import StubMerge.Merge.Conflict
import StubMerge.Merge.Settle
import StubMerge.Merge.Merger
import StubMerge.Text.Reader
import StubMerge.Data.Decimal
import StubMerge.Toml.Table
import StubMerge.Toml.Literal
import StubMerge.Toml.Document
import StubMerge.Settings
import StubMerge.Data.Json
import StubMerge.Merge.Report
import StubMerge.Command.Arguments
import StubMerge.Command.Help
import StubMerge.Command.Place
import StubMerge.Command.World
import StubMerge.Command.Disk
import StubMerge.Command.Run
import StubMerge.Main
import StubMerge.Proofs.Table
import StubMerge.Proofs.Edits
import StubMerge.Proofs.Places
import StubMerge.Proofs.Growth
import StubMerge.Proofs.Shape
import StubMerge.Proofs.Finding
import StubMerge.Proofs.Opposing
import StubMerge.Proofs.Standing
import StubMerge.Proofs.Visiting
import StubMerge.Proofs.Passes
import StubMerge.Proofs.Resolving
import StubMerge.Proofs.Coalescing
import StubMerge.Proofs.Extension
import StubMerge.Proofs.LeftSide
import StubMerge.Proofs.Coverage
import StubMerge.Proofs.Naming
import StubMerge.Proofs.Traces
import StubMerge.Proofs.Alignment
import StubMerge.Proofs.PlainPairs
import StubMerge.Proofs.PlainMerging
import StubMerge.Proofs.Resolution
import StubMerge.Proofs.Links
import StubMerge.Proofs.Soundness
import StubMerge.Proofs.Outcome
import StubMerge.Proofs.Copies
import StubMerge.Proofs.Drafts
import StubMerge.Proofs.Spelling
import StubMerge.Proofs.SelfMerge
import StubMerge.Proofs.Lexemes
import StubMerge.Proofs.Pieces
import StubMerge.Proofs.Printable
import StubMerge.Proofs.Builders
import StubMerge.Proofs.Headers
import StubMerge.Proofs.Leaves
import StubMerge.Proofs.Counting
import StubMerge.Proofs.Running
import StubMerge.Proofs.Identity
import StubMerge.Proofs.Renaming
import StubMerge.Proofs.Reaching
import StubMerge.Proofs.Renumbering
import StubMerge.Proofs.Incremental
import StubMerge.Proofs.Sidedness
import StubMerge.Proofs.Remerging
import StubMerge.Proofs.Calls
import StubMerge.Proofs.Blocks
import StubMerge.Proofs.Rereading
import StubMerge.Proofs.Histories
import StubMerge.Proofs.Freshness
import StubMerge.Proofs.Markers
import StubMerge.Proofs.Tidiness
import StubMerge.Proofs.Sides
import StubMerge.Proofs.Captures
import StubMerge.Proofs.Cleanness
import StubMerge.Proofs.TokenTexts
import StubMerge.Proofs.InText
import StubMerge.Proofs.Steady
import StubMerge.Proofs.SteadyFiles
import StubMerge.Proofs.Formatting
import StubMerge.Proofs.Tiling
import StubMerge.Proofs.Viewing
import StubMerge.Proofs.Settling
import StubMerge.Proofs.NormalForm
import StubMerge.Proofs.Plotting
import StubMerge.Proofs.Totality
import StubMerge.Proofs.Exactness
import StubMerge.Proofs.Folding
import StubMerge.Proofs.Signatures
import StubMerge.Proofs.Positions
import StubMerge.Proofs.Traversal
import StubMerge.Proofs.Grafting
import StubMerge.Proofs.LineBreaks
import StubMerge.Proofs.CapturedText
