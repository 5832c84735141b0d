import Interleaving.Duration
import Interleaving.Files
import Interleaving.Search.Result
import Interleaving.Text.Natural
import Interleaving.Yaml.Printer

/-!
# Reports

A report is the outcome of a search as a YAML document: when it was written, the verdict, and the
result in full. It goes into a file of a fixed name in a directory that is made for it.
-/

namespace Interleaving

/-- A report. The verdict is a word and the result may be missing, because a report that is read can
have been written by anyone. -/
structure Report where
  generated : Moment
  verdict : String
  result : Option SearchResult
deriving DecidableEq

namespace Report

/-- The name of the file with a report. -/
def fileName : String := "report.yaml"

/-- The report on a search. -/
def ofResult (r : SearchResult) (now : Moment) : Report :=
  { generated := now, verdict := r.verdict.name, result := some r }

/-! ### As a document -/

/-- An integer. -/
def integer (n : Int) : Yaml := .plain (Text.decimal n)

/-- A truth value. -/
def truth (b : Bool) : Yaml := .plain (if b then "true" else "false")

/-- Numbers by their names, in the natural order of these. -/
def counts (d : Dictionary Int) : Yaml :=
  .fields ((d.entries.mergeSort fun a b => !Text.naturallyBefore b.1 a.1).map fun (name, n) =>
    (name, integer n))

/-- A directive. -/
def directive (d : Directive) : Yaml :=
  .fields [("kind", .text d.kind.name), ("task", integer d.task)]

/-- Where a task stands. -/
def taskReport (t : TaskReport) : Yaml :=
  .fields [("task", integer t.task), ("thread", .text t.thread), ("pc", integer t.position),
    ("state", .text t.state)]

/-- A bug. -/
def bug (b : Bug) : Yaml :=
  .fields [("iteration", integer b.iteration), ("message", .text b.message),
    ("schedule", .sequence (b.schedule.map directive)),
    ("tasks", .sequence (b.tasks.map taskReport))]

/-- What was covered. The series is left out when it is empty. -/
def coverage (c : CoverageSummary) : Yaml :=
  .fields ([("distinct", integer c.distinct), ("total", integer c.total),
    ("duplicates", integer c.duplicates)] ++
    if c.series.isEmpty then [] else [("series", .sequence (c.series.map integer))])

/-- What was explored. -/
def exploration (s : ExplorationSummary) : Yaml :=
  .fields [("popped", counts s.popped), ("pushed", counts s.pushed),
    ("inconsistent", integer s.inconsistent), ("pending", integer s.pending)]

/-- The result of a search. The path of the trace is left out when there is none. -/
def searchResult (r : SearchResult) : Yaml :=
  .fields ([("run_id", .text r.runId), ("program", .text r.program),
    ("iterations", integer r.iterations), ("complete", truth r.complete), ("ok", integer r.ok),
    ("blocked", integer r.blocked), ("bugs", .sequence (r.bugs.map bug))] ++
    (if r.tracePath = "" then [] else [("trace_path", .text r.tracePath)]) ++
    [("coverage", coverage r.coverage), ("stats", exploration r.stats),
      ("elapsed", .text (Duration.text r.elapsed))])

/-- A report as a document. -/
def toYaml (r : Report) : Yaml :=
  .fields [("generated", .plain r.generated.text), ("verdict", .text r.verdict),
    ("result", match r.result with
      | some result => searchResult result
      | none => .plain "null")]

/-- The text of a report. -/
def text (r : Report) : String := r.toYaml.print

/-! ### In a file -/

/-- Why a report cannot be written. -/
inductive WriteError where
  | directory (cause : Files.Error)
  | file (cause : Files.Error)
deriving DecidableEq

/-- The message about a report that cannot be written. -/
def WriteError.message : WriteError → String
  | .directory cause => "failed to create report directory: " ++ cause.message
  | .file cause => "failed to write report: " ++ cause.message

/-- Writes a report into a directory, which is made if it is missing. -/
def write (r : Report) (dir : String) (files : Files) : Except WriteError (String × Files) := do
  let files ← (files.makeDirectories dir).mapError .directory
  let path := Files.join dir fileName
  let files ← (files.write path r.text).mapError .file
  return (path, files)

end Report

end Interleaving
