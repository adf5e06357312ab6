import Zipship.Clean.Report
import Zipship.Clean.Run
import Zipship.Command.Display
import Zipship.Command.Line
import Zipship.Command.Run
import Zipship.Config.Basic
import Zipship.Config.Error
import Zipship.Config.Layers
import Zipship.Config.Schema
import Zipship.Config.Validity
import Zipship.Deflate.Bits
import Zipship.Deflate.Code
import Zipship.Deflate.Codebook
import Zipship.Deflate.Decoder
import Zipship.Deflate.Encoder
import Zipship.Deflate.Header
import Zipship.Deflate.Huffman
import Zipship.Deflate.Matcher
import Zipship.Deflate.Token
import Zipship.Digest.Crc32
import Zipship.Digest.File
import Zipship.Digest.Hex
import Zipship.Digest.Sha256
import Zipship.Display.Digest
import Zipship.Display.Duration
import Zipship.Display.Size
import Zipship.Json.Printer
import Zipship.Json.Value
import Zipship.Main
import Zipship.Number.Rounding
import Zipship.Number.Shortest
import Zipship.Package.Archive
import Zipship.Package.Report
import Zipship.Package.Run
import Zipship.Package.Walk
import Zipship.Path.Basic
import Zipship.Path.Extension
import Zipship.Run.Execution
import Zipship.Run.Host
import Zipship.Run.Machine
import Zipship.Shell.Encoding
import Zipship.Shell.Format
import Zipship.Shell.Interpreter
import Zipship.Shell.Launcher
import Zipship.Shell.Script
import Zipship.Shell.Session
import Zipship.Shell.System
import Zipship.Shell.Utility
import Zipship.Task.Basic
import Zipship.Task.Graph
import Zipship.Task.Report
import Zipship.Task.ReportJson
import Zipship.Testing.Invocation
import Zipship.Testing.Report
import Zipship.Testing.WaitStatus
import Zipship.Text.Blank
import Zipship.Text.Bytes
import Zipship.Text.Printable
import Zipship.Text.Quoted
import Zipship.Text.Shown
import Zipship.Toml.Building
import Zipship.Toml.Document
import Zipship.Toml.Reader
import Zipship.Toml.Scalar
import Zipship.Toml.Text
import Zipship.Toml.Value
import Zipship.Tree.Basic
import Zipship.Tree.Bytecode
import Zipship.Tree.Edit
import Zipship.Tree.Layout
import Zipship.Tree.OsError
import Zipship.Tree.Resolve
import Zipship.Zip.Entry
import Zipship.Zip.Reader
import Zipship.Zip.Writer
import Zipship.Proofs.Clean.Again
import Zipship.Proofs.Clean.Exact
import Zipship.Proofs.Clean.Failure
import Zipship.Proofs.Clean.Frame
import Zipship.Proofs.Clean.Freed
import Zipship.Proofs.Clean.Passes
import Zipship.Proofs.Clean.Sweep
import Zipship.Proofs.Clean.Walk
import Zipship.Proofs.Command.CleanFirst
import Zipship.Proofs.Command.ExitCode
import Zipship.Proofs.Command.Format
import Zipship.Proofs.Command.Line
import Zipship.Proofs.Command.Sources
import Zipship.Proofs.Config.Entries
import Zipship.Proofs.Config.Layers
import Zipship.Proofs.Config.Schema
import Zipship.Proofs.Config.Valid
import Zipship.Proofs.Deflate.Bits
import Zipship.Proofs.Deflate.Code
import Zipship.Proofs.Deflate.Header
import Zipship.Proofs.Deflate.RoundTrip
import Zipship.Proofs.Deflate.Size
import Zipship.Proofs.Deflate.Tokens
import Zipship.Proofs.Digest.Conformance
import Zipship.Proofs.Digest.Reading
import Zipship.Proofs.Digest.Sha256
import Zipship.Proofs.Digest.Standard
import Zipship.Proofs.Display.Size
import Zipship.Proofs.Json.Lines
import Zipship.Proofs.Json.Reader
import Zipship.Proofs.Json.Reading
import Zipship.Proofs.Number.Rounding
import Zipship.Proofs.Package.Abandoned
import Zipship.Proofs.Package.Archive
import Zipship.Proofs.Package.Artifact
import Zipship.Proofs.Package.Barrier
import Zipship.Proofs.Package.Cleaned
import Zipship.Proofs.Package.Content
import Zipship.Proofs.Package.Entry
import Zipship.Proofs.Package.Failure
import Zipship.Proofs.Package.Filling
import Zipship.Proofs.Package.Frame
import Zipship.Proofs.Package.Fresh
import Zipship.Proofs.Package.Links
import Zipship.Proofs.Package.Obstacle
import Zipship.Proofs.Package.Order
import Zipship.Proofs.Package.Output
import Zipship.Proofs.Package.Remains
import Zipship.Proofs.Package.Stages
import Zipship.Proofs.Package.Thinned
import Zipship.Proofs.Package.Walk
import Zipship.Proofs.Path.Extension
import Zipship.Proofs.Path.Spelling
import Zipship.Proofs.Run.Attempt
import Zipship.Proofs.Run.Execution
import Zipship.Proofs.Run.Invariant
import Zipship.Proofs.Run.Repeat
import Zipship.Proofs.Run.Report
import Zipship.Proofs.Run.Task
import Zipship.Proofs.Task.Acyclic
import Zipship.Proofs.Task.Append
import Zipship.Proofs.Task.Cycle
import Zipship.Proofs.Task.Declaration
import Zipship.Proofs.Task.Document
import Zipship.Proofs.Task.Plan
import Zipship.Proofs.Task.Standard
import Zipship.Proofs.Testing.Launch
import Zipship.Proofs.Testing.Places
import Zipship.Proofs.Text.Encoding
import Zipship.Proofs.Text.Lines
import Zipship.Proofs.Toml.Distinct
import Zipship.Proofs.Toml.Documents
import Zipship.Proofs.Toml.Written
import Zipship.Proofs.Tree.Agreement
import Zipship.Proofs.Tree.Apart
import Zipship.Proofs.Tree.Beside
import Zipship.Proofs.Tree.Confined
import Zipship.Proofs.Tree.Edit
import Zipship.Proofs.Tree.Invariant
import Zipship.Proofs.Tree.Joined
import Zipship.Proofs.Tree.Lookup
import Zipship.Proofs.Tree.Made
import Zipship.Proofs.Tree.Order
import Zipship.Proofs.Tree.Refusal
import Zipship.Proofs.Tree.Spelled
import Zipship.Proofs.Tree.Unlinked
import Zipship.Proofs.Tree.View
import Zipship.Proofs.Tree.Weight
import Zipship.Proofs.Zip.RoundTrip
import Zipship.Proofs.Zip.Size
