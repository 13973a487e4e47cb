import Quill.Agenda.Basic
import Quill.Analysis.AtCursor
import Quill.Analysis.DiagnosticSet
import Quill.Analysis.Edits
import Quill.Analysis.Outline
import Quill.Analysis.Symbol
import Quill.Cache.Basic
import Quill.Cache.Named
import Quill.Compile.Artifact
import Quill.Compile.Compiler
import Quill.Compile.Expansion
import Quill.Compile.Gather
import Quill.Compile.Resolution
import Quill.Compile.World
import Quill.Data.Dict
import Quill.Data.Sort
import Quill.Debug.Channel
import Quill.Diagnostic
import Quill.Digest.Sha256
import Quill.Disk.Basic
import Quill.Disk.StandardFiles
import Quill.Engine.Basic
import Quill.Engine.Config
import Quill.Engine.Operations
import Quill.Engine.Perform
import Quill.Engine.Session
import Quill.Engine.Trace
import Quill.Failure
import Quill.Flow.Answering
import Quill.Flow.Basic
import Quill.Flow.Compile
import Quill.Flow.Script
import Quill.Layout.Document
import Quill.Markup.Identifier
import Quill.Markup.Includes
import Quill.Markup.Inline
import Quill.Markup.Item
import Quill.Markup.Reader
import Quill.Number.Basic
import Quill.Number.Decimal
import Quill.Number.Shortest
import Quill.Path.Document
import Quill.Path.FileUri
import Quill.Path.Folder
import Quill.Path.Percent
import Quill.Path.Posix
import Quill.Proofs.Analysis.Completion
import Quill.Proofs.Analysis.Diagnostics
import Quill.Proofs.Analysis.Edits
import Quill.Proofs.Analysis.Folding
import Quill.Proofs.Analysis.Formatting
import Quill.Proofs.Analysis.Lookups
import Quill.Proofs.Analysis.Nesting
import Quill.Proofs.Analysis.References
import Quill.Proofs.Analysis.RenameResolution
import Quill.Proofs.Analysis.Symbols
import Quill.Proofs.Cache.Budget
import Quill.Proofs.Cache.Recency
import Quill.Proofs.Cache.SingleFlight
import Quill.Proofs.Cache.Waiters
import Quill.Proofs.Compile.Coverage
import Quill.Proofs.Compile.Cycles
import Quill.Proofs.Compile.Findings
import Quill.Proofs.Compile.Flattening
import Quill.Proofs.Compile.Scope
import Quill.Proofs.Flow.Ensures
import Quill.Proofs.Freshness.Delivery
import Quill.Proofs.Layout.Canonical
import Quill.Proofs.Layout.Document
import Quill.Proofs.Layout.Meaning
import Quill.Proofs.Markup.Cursor
import Quill.Proofs.Markup.Includes
import Quill.Proofs.Markup.Paragraphs
import Quill.Proofs.Markup.Titles
import Quill.Proofs.Path.Identity
import Quill.Proofs.Run.Basic
import Quill.Proofs.Scheduler.Budget
import Quill.Proofs.Scheduler.Leads
import Quill.Proofs.Scheduler.Operations
import Quill.Proofs.Scheduler.Outcomes
import Quill.Proofs.Scheduler.Publication
import Quill.Proofs.Scheduler.Slots
import Quill.Proofs.Server.Settings
import Quill.Proofs.Snapshot.Build
import Quill.Proofs.Snapshot.Fingerprint
import Quill.Proofs.Store.Atomic
import Quill.Proofs.Text.Smallest
import Quill.Proofs.View.Diagnostics
import Quill.Publisher.Basic
import Quill.Query.Answer
import Quill.Query.Basic
import Quill.Query.Edit
import Quill.Record.Answer
import Quill.Record.Artifact
import Quill.Record.Basic
import Quill.Record.Config
import Quill.Record.Engine
import Quill.Record.Item
import Quill.Record.Query
import Quill.Record.Script
import Quill.Record.State
import Quill.Record.Tagged
import Quill.Scheduler.Basic
import Quill.Scheduler.Task
import Quill.Server.Basic
import Quill.Server.Capabilities
import Quill.Server.Message
import Quill.Server.Perform
import Quill.Server.Protocol
import Quill.Server.ResponseError
import Quill.Server.Session
import Quill.Server.Settings
import Quill.Signal.Board
import Quill.Signal.Cancellation
import Quill.Snapshot.Basic
import Quill.Snapshot.Leases
import Quill.Store.Basic
import Quill.Text.Basic
import Quill.Text.Blank
import Quill.Text.Lines
import Quill.Text.LowerCase
import Quill.Text.Order
import Quill.Text.Position
import Quill.Text.Replacement
import Quill.Value.Basic
import Quill.Value.Canonical
import Quill.Value.Json
import Quill.Value.Read
import Quill.Proofs.Layout.Reflow
import Quill.Proofs.Flow.Leases
import Quill.Proofs.Run.Carried
import Quill.Proofs.Run.Leases
