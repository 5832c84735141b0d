import Interleaving.Coverage
import Interleaving.Exploration.Engine
import Interleaving.Graph.Schedule
import Interleaving.Machine.Basic

/-!
# Results of a search

How a run ended, and what a search reports when it is over: how many runs there were, the errors of
the program that they showed, each with the schedule that led to it, and what was covered.
-/

namespace Interleaving

/-- How a run ended. -/
inductive Status where
  /-- Every task came to its end. -/
  | ok
  /-- The program showed an error. -/
  | bug
  /-- The run was cut short because the graph blocks it. -/
  | blocked
deriving DecidableEq

namespace Status

/-- The name of the status with a code; a code without a status is named by its number. -/
def nameOfCode (code : UInt8) : String :=
  match code.toNat with
  | 0 => "ok"
  | 1 => "bug"
  | 2 => "blocked"
  | n => "Status(" ++ Nat.repr n ++ ")"

/-- The code of a status. -/
def code : Status → UInt8
  | .ok => 0
  | .bug => 1
  | .blocked => 2

/-- The name of a status. -/
def name (s : Status) : String := nameOfCode s.code

/-- How a run ended that an outcome put an end to. -/
def ofOutcome : Outcome → Status
  | .haltOk => .ok
  | .haltError _ => .bug
  | _ => .blocked

end Status

/-- Where a task stands, for reports. -/
structure TaskReport where
  task : Int
  thread : String
  position : Int
  state : String
deriving DecidableEq

/-- Where every task stands. -/
def Machine.reports (m : Machine) : List TaskReport :=
  m.tasks.zipIdx.map fun (t, i) =>
    { task := (i : Int) + 1, thread := t.thread, position := t.position, state := t.state.name }

/-- A run that showed an error of the program. -/
structure Bug where
  iteration : Int
  message : String
  schedule : List Directive
  tasks : List TaskReport
deriving DecidableEq

/-- Numbers about the exploration, by the names of the alternatives. -/
structure ExplorationSummary where
  popped : Dictionary Int
  pushed : Dictionary Int
  inconsistent : Int
  pending : Int
deriving DecidableEq

/-- Nothing explored. -/
def ExplorationSummary.zero : ExplorationSummary := ⟨.empty, .empty, 0, 0⟩

/-- The numbers of a tally under the names of its alternatives. -/
def Tally.summary (t : Tally) : Dictionary Int :=
  .ofList (t.map fun (k, n) => (k.name, (n : Int)))

/-- The summary of the numbers of an engine. -/
def Engine.Stats.summary (s : Engine.Stats) : ExplorationSummary :=
  { popped := s.popped.summary, pushed := s.pushed.summary, inconsistent := s.inconsistent,
    pending := s.pending }

/-- What a search reports. -/
structure SearchResult where
  runId : String
  program : String
  iterations : Int
  /-- Whether nothing was left to explore. -/
  complete : Bool
  ok : Int
  blocked : Int
  bugs : List Bug
  /-- The file with the schedule of the first bug; empty when there is none. -/
  tracePath : String
  coverage : CoverageSummary
  stats : ExplorationSummary
  /-- The duration in nanoseconds. -/
  elapsed : Int
deriving DecidableEq

namespace SearchResult

/-- The result of a search for a program that has not begun. -/
def initial (program : String) : SearchResult :=
  { runId := "", program, iterations := 0, complete := false, ok := 0, blocked := 0, bugs := [],
    tracePath := "", coverage := .zero, stats := .zero, elapsed := 0 }

/-- Counts a run. -/
def count (r : SearchResult) (s : Status) : SearchResult :=
  { r with
    iterations := r.iterations + 1
    ok := if s = .ok then r.ok + 1 else r.ok
    blocked := if s = .blocked then r.blocked + 1 else r.blocked }

end SearchResult

/-- A search in one word. -/
inductive Verdict where
  /-- Everything was explored and no error was found. -/
  | safe
  | bug
  /-- The search ended early without an error. -/
  | incomplete
deriving DecidableEq

/-- The word for a verdict. -/
def Verdict.name : Verdict → String
  | .safe => "safe"
  | .bug => "bug"
  | .incomplete => "incomplete"

/-- The verdict on a search. -/
def SearchResult.verdict (r : SearchResult) : Verdict :=
  if !r.bugs.isEmpty then .bug else if r.complete then .safe else .incomplete

end Interleaving
