import SolidityStubs.CommandLine.Arguments
import SolidityStubs.CommandLine.Session
import SolidityStubs.Generate
import SolidityStubs.Import.Failure
import SolidityStubs.Import.Library
import SolidityStubs.Import.Loading
import SolidityStubs.Import.Path
import SolidityStubs.Main
import SolidityStubs.Peg.Basic
import SolidityStubs.Peg.Run
import SolidityStubs.Peg.Trace
import SolidityStubs.Source.Declaration
import SolidityStubs.Source.Grammar
import SolidityStubs.Source.Parse
import SolidityStubs.Source.Rule
import SolidityStubs.Source.SyntaxError
import SolidityStubs.Source.Tree
import SolidityStubs.Source.Trivia
import SolidityStubs.Stub.Block
import SolidityStubs.Stub.Render
import SolidityStubs.Stub.Surface
import SolidityStubs.Text.Blank
import SolidityStubs.Text.Place
import SolidityStubs.Text.Span
import SolidityStubs.Text.Word
import SolidityStubs.Text.WordRanges
import SolidityStubs.Proofs.Peg.Progress
import SolidityStubs.Proofs.Import.Resolution
import SolidityStubs.Proofs.Peg.Carry
import SolidityStubs.Proofs.Peg.Repetition
import SolidityStubs.Proofs.Source.Edit
import SolidityStubs.Proofs.Source.Spans
import SolidityStubs.Proofs.Stub.Edited
import SolidityStubs.Proofs.Stub.Hidden
import SolidityStubs.Proofs.Stub.Lines
import SolidityStubs.Proofs.Import.Blame
import SolidityStubs.Proofs.Import.Stack
import SolidityStubs.Proofs.Source.Written
import SolidityStubs.Proofs.Source.Tokens
import SolidityStubs.Proofs.Source.Words
import SolidityStubs.Proofs.Source.Printed
import SolidityStubs.Proofs.Source.Recovered
import SolidityStubs.Proofs.Source.Closed
import SolidityStubs.Proofs.Source.Enclosed
import SolidityStubs.Proofs.Stub.Shape
import SolidityStubs.Proofs.Source.Taken
import SolidityStubs.Proofs.Stub.ReadBack
import SolidityStubs.Proofs.Stub.Retained
import SolidityStubs.Proofs.Stub.Again
import SolidityStubs.Proofs.Text.Renaming
import SolidityStubs.Proofs.Source.Renamed
import SolidityStubs.Proofs.Stub.Readable
import SolidityStubs.Proofs.Import.Dependence
import SolidityStubs.Proofs.Source.Coverage
import SolidityStubs.Proofs.Stub.Modes
import SolidityStubs.Proofs.Import.Walk
import SolidityStubs.Proofs.Import.Chain
import SolidityStubs.Proofs.Source.Groups
import SolidityStubs.Proofs.Text.Runs
import SolidityStubs.Proofs.Import.Location
import SolidityStubs.Proofs.Peg.Calls
import SolidityStubs.Proofs.Peg.Depth
import SolidityStubs.Proofs.Source.Totality
import SolidityStubs.Proofs.Peg.Failures
import SolidityStubs.Proofs.Source.Reported
import SolidityStubs.Proofs.Source.Types
import SolidityStubs.Proofs.Stub.TypeText
import SolidityStubs.Proofs.Source.Pieces
import SolidityStubs.Proofs.Source.Commented
import SolidityStubs.Proofs.Source.Outline
import SolidityStubs.Proofs.Import.Canonical
import SolidityStubs.Proofs.Import.Naming
import SolidityStubs.Proofs.Peg.Tally
import SolidityStubs.Proofs.Source.Verbatim
