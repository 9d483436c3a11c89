import CallGraph.CommandLine
import CallGraph.Failure
import CallGraph.Files.Resolve
import CallGraph.Files.Tree
import CallGraph.Files.Walk
import CallGraph.Graph
import CallGraph.Json.Basic
import CallGraph.Json.Parser
import CallGraph.Json.Printer
import CallGraph.Json.Token
import CallGraph.KeyMap
import CallGraph.Language
import CallGraph.Main
import CallGraph.Path
import CallGraph.Pattern
import CallGraph.Program
import CallGraph.Proofs.Batch
import CallGraph.Proofs.Call
import CallGraph.Proofs.CommandLine
import CallGraph.Proofs.Files.Below
import CallGraph.Proofs.Files.Resolve
import CallGraph.Proofs.Files.Tree
import CallGraph.Proofs.Files.Walk
import CallGraph.Proofs.Files.Written
import CallGraph.Proofs.Graph.Accumulation
import CallGraph.Proofs.Graph.Policy
import CallGraph.Proofs.Graph.Report
import CallGraph.Proofs.Graph.Reset
import CallGraph.Proofs.Graph.Run
import CallGraph.Proofs.Graph.Shape
import CallGraph.Proofs.Graph.WellFormed
import CallGraph.Proofs.Json.Grammar
import CallGraph.Proofs.Json.Numeral
import CallGraph.Proofs.Json.Printer
import CallGraph.Proofs.Json.Reader
import CallGraph.Proofs.Json.Real
import CallGraph.Proofs.KeyMap
import CallGraph.Proofs.Path
import CallGraph.Proofs.Path.Names
import CallGraph.Proofs.Pattern
import CallGraph.Proofs.Record.Conservation
import CallGraph.Proofs.Record.Content
import CallGraph.Proofs.Record.Decode
import CallGraph.Proofs.Record.Package
import CallGraph.Proofs.Record.Snapshot
import CallGraph.Proofs.Reference
import CallGraph.Proofs.Reference.Composition
import CallGraph.Proofs.Reference.Restriction
import CallGraph.Proofs.Reference.Spacing
import CallGraph.Proofs.Reference.Tally
import CallGraph.Proofs.Rerun
import CallGraph.Proofs.Resemblance
import CallGraph.Proofs.Run
import CallGraph.Proofs.Scan.Agreement
import CallGraph.Proofs.Scan.Build
import CallGraph.Proofs.Scan.Gather
import CallGraph.Proofs.Scan.Interleaving
import CallGraph.Proofs.Scan.Pool
import CallGraph.Proofs.SourceFile
import CallGraph.Proofs.Text.Lines
import CallGraph.Proofs.Text.Utf8
import CallGraph.Proofs.Weight.Decimal
import CallGraph.Proofs.Weight.Nearest
import CallGraph.Proofs.Weight.Value
import CallGraph.Record.Basic
import CallGraph.Record.Decode
import CallGraph.Record.Schema
import CallGraph.Run
import CallGraph.Scan.Build
import CallGraph.Scan.FanOut
import CallGraph.Scan.Pool
import CallGraph.Scan.Schedule
import CallGraph.SourceFile
import CallGraph.Text.Basic
import CallGraph.Text.Bytes
import CallGraph.Text.Quoted
import CallGraph.Text.Terminal
import CallGraph.Text.Utf8
import CallGraph.Weight.Basic
import CallGraph.Weight.Decimal
import CallGraph.Weight.Format
import CallGraph.Weight.Shortest
