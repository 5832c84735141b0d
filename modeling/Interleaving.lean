import Interleaving.Clock
import Interleaving.CommandLine.Arguments
import Interleaving.CommandLine.Flag
import Interleaving.CommandLine.Run
import Interleaving.Coverage
import Interleaving.Decimal.Double
import Interleaving.Decimal.Shortest
import Interleaving.Detail
import Interleaving.Dictionary
import Interleaving.Digest
import Interleaving.Duration
import Interleaving.Event.Attribute
import Interleaving.Event.Basic
import Interleaving.Event.Key
import Interleaving.Event.Kind
import Interleaving.Event.Observation
import Interleaving.Exploration.Alternative
import Interleaving.Exploration.Engine
import Interleaving.Exploration.Outcome
import Interleaving.Exploration.Recording
import Interleaving.Exploration.Scheduler
import Interleaving.Exploration.Selection
import Interleaving.Files
import Interleaving.Graph.Alternatives
import Interleaving.Graph.Basic
import Interleaving.Graph.Consistency
import Interleaving.Graph.Edit
import Interleaving.Graph.Error
import Interleaving.Graph.Node
import Interleaving.Graph.Order
import Interleaving.Graph.Relation
import Interleaving.Graph.Schedule
import Interleaving.Graph.Snapshot
import Interleaving.Inspection.Graph
import Interleaving.Inspection.Search
import Interleaving.Inspection.Session
import Interleaving.Json.Basic
import Interleaving.Json.Decode
import Interleaving.Json.Parser
import Interleaving.Json.Printer
import Interleaving.Location
import Interleaving.Machine.Basic
import Interleaving.Machine.Step
import Interleaving.Main
import Interleaving.Metrics
import Interleaving.Moment
import Interleaving.Program.Basic
import Interleaving.Program.Expression
import Interleaving.Program.Number
import Interleaving.Program.Validation
import Interleaving.Program.Value
import Interleaving.Random
import Interleaving.Report.Basic
import Interleaving.Report.Reader
import Interleaving.Revisit.Backward
import Interleaving.Revisit.Lock
import Interleaving.Search.Basic
import Interleaving.Search.Result
import Interleaving.Search.Run
import Interleaving.Session.Config
import Interleaving.Session.Run
import Interleaving.Sorting
import Interleaving.Source.Block
import Interleaving.Source.Expression
import Interleaving.Source.Load
import Interleaving.Source.Schema
import Interleaving.Source.Token
import Interleaving.Text.Blank
import Interleaving.Text.Case
import Interleaving.Text.Letter
import Interleaving.Text.Literal
import Interleaving.Text.Natural
import Interleaving.Text.Numeral
import Interleaving.Text.Printable
import Interleaving.Text.Quoted
import Interleaving.Text.Ranges
import Interleaving.Viewer.Address
import Interleaving.Viewer.Message
import Interleaving.Word
import Interleaving.Yaml.Basic
import Interleaving.Yaml.Parser
import Interleaving.Yaml.Printer
import Interleaving.Yaml.Scalar
import Interleaving.Proofs.Exploration.Frame
import Interleaving.Proofs.Exploration.Recording
import Interleaving.Proofs.Exploration.Stack
import Interleaving.Proofs.Graph.Alternatives
import Interleaving.Proofs.Graph.Bare
import Interleaving.Proofs.Graph.Consistency
import Interleaving.Proofs.Graph.Editing
import Interleaving.Proofs.Graph.Entry
import Interleaving.Proofs.Graph.Equality
import Interleaving.Proofs.Graph.Forward
import Interleaving.Proofs.Graph.Prune
import Interleaving.Proofs.Graph.Reclocking
import Interleaving.Proofs.Graph.Removal
import Interleaving.Proofs.Graph.Shape
import Interleaving.Proofs.Graph.Snapshot
import Interleaving.Proofs.Graph.Stamps
import Interleaving.Proofs.Graph.Storage
import Interleaving.Proofs.Graph.Trace
import Interleaving.Proofs.Machine.Commuting
import Interleaving.Proofs.Machine.Invariant
import Interleaving.Proofs.Machine.Renumbering
import Interleaving.Proofs.Machine.Schedule
import Interleaving.Proofs.Program.Validity
import Interleaving.Proofs.Relocation.Exploration
import Interleaving.Proofs.Revisit.Apply
import Interleaving.Proofs.Revisit.Enumeration
import Interleaving.Proofs.Revisit.Extension
import Interleaving.Proofs.Revisit.Proposal
import Interleaving.Proofs.Search.Bound
import Interleaving.Proofs.Search.Causality
import Interleaving.Proofs.Search.Counters
import Interleaving.Proofs.Search.Fidelity
import Interleaving.Proofs.Search.LockDiscipline
import Interleaving.Proofs.Search.Termination
import Interleaving.Proofs.Search.Verdict
import Interleaving.Proofs.Tracking.Backward
import Interleaving.Proofs.Tracking.Consistent
import Interleaving.Proofs.Tracking.Reproduction
