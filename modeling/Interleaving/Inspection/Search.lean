import Interleaving.Inspection.Graph
import Interleaving.Machine.Step
import Interleaving.Metrics
import Interleaving.Search.Basic

/-!
# Looking into a search

JSON documents that show programs, machines, runs and results to someone who wants to look inside.
-/

namespace Interleaving

/-- A dictionary of integers. -/
def Dictionary.viewInts (d : Dictionary Int) : Json :=
  .object (d.entries.map fun (name, n) => (name, .ofInt n))

/-! ### Programs and machines -/

/-- Variables with the texts of their values. -/
def Value.viewAll (d : Dictionary Value) : Json :=
  .object (d.entries.map fun (name, v) => (name, .text v.render))

/-- Names in increasing order, each of them once. -/
def sortedNames (names : List String) : List String :=
  names.eraseDups.mergeSort fun a b => decide (a ≤ b)

/-- A document about an operation: what is given of its operands, and what its expressions read. -/
def Operation.view (op : Operation) : Json :=
  let given (name s : String) : List (String × Json) := if s = "" then [] else [(name, .text s)]
  let reads (name : String) : Option Expression → List (String × Json)
    | none => []
    | some e => [(name, .texts (sortedNames e.reads))]
  .object ([("kind", .text op.kind.name), ("visible", .bool op.kind.isVisible)] ++
    given "var" op.shared ++ given "into" op.into ++ given "lock" op.lock ++
    given "thread" op.thread ++ given "message" op.message ++ reads "value_reads" op.value ++
    reads "condition_reads" op.condition)

/-- The wishes for a search that are set. -/
def Settings.view (s : Settings) : Json :=
  let set {α : Type} (name : String) (f : α → Json) (v : Option α) : List (String × Json) :=
    match v with
    | some v => [(name, f v)]
    | none => []
  .object (set "max_iterations" .ofInt s.maxIterations ++ set "policy" .text s.policy ++
    set "seed" .ofInt s.seed ++ set "stop_on_bug" .bool s.stopOnBug)

/-- A document about a program. -/
def Program.view (p : Program) : Json :=
  let threads := p.threads.entries.map fun (name, ops) =>
    (name, Json.object [("ops", .ofList Operation.view ops),
      ("registers", .texts (registersOf ops))])
  .object [("name", p.name), ("vars", Value.viewAll p.globals), ("threads", .object threads),
    ("settings", .ofOption Settings.view p.settings)]

/-- The registers of every thread. -/
def Program.viewRegisters (p : Program) : Json :=
  .object (p.threads.entries.map fun (name, ops) => (name, .texts (registersOf ops)))

/-- A document about a task. -/
def TaskReport.view (t : TaskReport) : Json :=
  .object [("task", t.task), ("thread", t.thread), ("pc", t.position), ("state", t.state)]

/-- A document about a machine. -/
def Machine.view (m : Machine) : Json :=
  .object [("active", .ofList .ofInt m.active), ("done", m.isDone),
    ("deadlocked", m.isDeadlocked), ("tasks", m.tasks.length),
    ("snapshot", .ofList TaskReport.view m.reports), ("memory", Value.viewAll m.memory)]

/-! ### Results -/

/-- A document about a bug. -/
def Bug.view (b : Bug) : Json :=
  .object [("iteration", b.iteration), ("message", b.message),
    ("schedule", Directive.viewAll b.schedule), ("tasks", .ofList TaskReport.view b.tasks)]

/-- The members of a document about coverage, the series apart. -/
def CoverageSummary.members (c : CoverageSummary) : List (String × Json) :=
  [("distinct", c.distinct), ("total", c.total), ("duplicates", c.duplicates)]

/-- A document about coverage. -/
def CoverageSummary.view (c : CoverageSummary) : Json :=
  .object (c.members ++ [("series", .ofList .ofInt c.series)])

/-- A document about an exploration. -/
def ExplorationSummary.view (s : ExplorationSummary) : Json :=
  .object [("popped", s.popped.viewInts), ("pushed", s.pushed.viewInts),
    ("inconsistent", s.inconsistent), ("pending", s.pending)]

/-- A document about the result of a search. -/
def SearchResult.view (r : SearchResult) : Json :=
  .object [("program", r.program), ("iterations", r.iterations), ("complete", r.complete),
    ("ok", r.ok), ("blocked", r.blocked), ("bugs", .ofList Bug.view r.bugs),
    ("traced", decide (r.tracePath ≠ "")), ("coverage", r.coverage.view),
    ("stats", r.stats.view)]

/-- A document about a run, without its graph. -/
def Search.Iteration.members (it : Search.Iteration) : List (String × Json) :=
  [("index", it.index), ("status", it.status.name), ("events", it.events), ("hash", it.hash),
    ("new_graph", it.newGraph)]

/-- The cumulative counts of a histogram. -/
def Histogram.viewCounts (h : Histogram) : Json :=
  .ofList (fun b : Int × Nat => .ofInt b.2) h.cumulative

/-- A document about a sample. Of durations, which differ from run to run, only the count is
shown. -/
def Sample.view : Sample → Json
  | .value name label v =>
    .object [("name", name), ("value", v),
      ("labels", .object (label.toList.map fun (l, s) => (l, .text s)))]
  | .histogram name h =>
    .object ([("name", .text name), ("labels", .object []), ("count", .ofInt h.count)] ++
      if name = "trustgo_checker_iteration_duration_seconds" then []
      else [("sum", .ofInt h.sum),
        ("buckets", .ofList (fun b : Int × Nat => .array [b.1, b.2]) h.cumulative)])

/-- All samples. -/
def Metrics.view (m : Metrics) : Json := .ofList Sample.view m.samples

end Interleaving
