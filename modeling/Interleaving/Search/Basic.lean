import Interleaving.Search.Run

/-!
# The search

A search runs a program again and again, each time along a schedule that the engine has not tried,
until nothing is left to explore, a limit on the number of runs is reached, or an error of the
program was found and one is enough. With a trace to replay there is a single run along it.

The state of a search (`Interleaving.Search`) carries what is published about every run, so that a
viewer or a counter is a function of the state. `Interleaving.Search.run?` has a bound on the number
of runs, on the number of alternatives that are tried before each run and on the number of turns of
each run. It gives nothing when the bound is too low.
-/

namespace Interleaving

/-- What a search is to do. -/
structure Search.Config where
  /-- The greatest number of runs; zero stands for no limit. -/
  maxIterations : Int
  /-- Whether the first error ends the search. -/
  stopOnBug : Bool
  /-- The file for the schedule of the first error; empty when it is not wanted. -/
  tracePath : String
  /-- The file with a trace to replay; empty for an exploration. -/
  replayPath : String
  scheduler : SchedulerConfig
  /-- The number of runs after which the search is told to stop. -/
  cancelAfter : Option Nat

/-- What is published about a run. -/
structure Search.Iteration where
  index : Int
  status : Status
  events : Int
  /-- The hash of the graph; empty while a trace is replayed. -/
  hash : String
  /-- Whether the graph was not seen before. -/
  newGraph : Bool
  /-- The graph as a JSON text. -/
  graph : String

/-- What is measured at the end of a run. -/
structure Search.Measurement where
  status : Status
  events : Int
  stats : ExplorationSummary
  distinct : Int
  duplicates : Int

/-- The state of a search. -/
structure Search where
  run : Run
  result : SearchResult
  coverage : Coverage
  published : List Search.Iteration
  measured : List Search.Measurement

namespace Search

/-- A search that is over, and why it broke off if it did. -/
structure Finished where
  search : Search
  error : Option Error

/-- Counts the graph of a run, unless a trace is replayed: its hash and whether it is new. -/
def recordGraph (s : Search) : String × Bool × Search :=
  if s.run.scheduler.replaying then ("", false, s)
  else
    let hash := s.run.scheduler.engine.graph.hash
    let counted := s.coverage.record hash
    (hash, counted.1, { s with coverage := counted.2 })

/-- Publishes a run. -/
def publish (s : Search) (n : Int) (status : Status) : Search :=
  let graph := s.run.scheduler.engine.graph
  let (hash, newGraph, s) := s.recordGraph
  let it : Iteration :=
    { index := n, status, events := graph.size, hash, newGraph, graph := graph.json false }
  { s with published := s.published ++ [it] }

/-- Measures a run. -/
def measure (s : Search) (events : Int) (status : Status) : Search :=
  let m : Measurement :=
    { status, events, stats := s.run.scheduler.engine.stats.summary,
      distinct := s.coverage.distinct, duplicates := s.coverage.duplicates }
  { s with measured := s.measured ++ [m] }

/-- Closes a run: publishes it, closes it for the scheduler and measures it. -/
def closeRun (s : Search) (n : Int) (status : Status) : Except Error Unit × Search :=
  let events : Int := s.run.scheduler.engine.graph.size
  let s := { s with result := s.result.count status }
  let s := s.publish n status
  let (r, scheduler) := s.run.scheduler.finishRun n (status = .ok)
  let s := { s with run := { s.run with scheduler } }
  match r with
  | .error e => (.error (.scheduler e), s)
  | .ok _ => (.ok (), s.measure events status)

/-- Notes an error of the program. The schedule of the first one goes into the trace file. -/
def noteBug (cfg : Config) (s : Search) (n : Int) (message : String) :
    Except Error Unit × Search :=
  let bug : Bug :=
    { iteration := n, message, schedule := s.run.scheduler.executed,
      tasks := s.run.machine.reports }
  let first := s.result.bugs.isEmpty
  let s := { s with result := { s.result with bugs := s.result.bugs ++ [bug] } }
  if first && cfg.tracePath ≠ "" then
    match s.run.scheduler.recordTrace cfg.tracePath (some bug.schedule) with
    | .error e => (.error (.scheduler e), s)
    | .ok scheduler =>
      (.ok (), { s with run := { s.run with scheduler },
                        result := { s.result with tracePath := cfg.tracePath } })
  else (.ok (), s)

/-- Ends a search in good order: sums up what was covered. -/
def conclude (s : Search) : Finished :=
  let result := { s.result with
    coverage := s.coverage.summary
    stats := s.run.scheduler.engine.stats.summary }
  { search := { s with result }, error := result.bugs.head?.map fun b => .bugFound b.message }

/-- Ends a search that broke off. -/
def breakOff (s : Search) (e : Error) : Finished := { search := s, error := some e }

/-- Does the run with a number, which has been prepared: `none` if the fuel does not suffice. -/
def doRun? (cfg : Config) (fuel : Nat) (s : Search) (n : Nat) :
    Option (Except Finished Search) := do
  let (progress, run) ← Run.finish fuel (s.run.start n)
  let s := { s with run }
  match progress with
  | .going => none
  | .failed e => return .error (s.breakOff e)
  | .ended status message =>
    let (closed, s) := s.closeRun n status
    if let .error e := closed then return .error (s.breakOff e)
    if status = .bug then
      let (noted, s) := s.noteBug cfg n message
      if let .error e := noted then return .error (s.breakOff e)
      return if cfg.stopOnBug then .error s.conclude else .ok s
    else return .ok s

/-- Runs from the one with a number on, up to the end of the search. -/
def loop (cfg : Config) : Nat → Nat → Search → Option Finished
  | 0, _, _ => none
  | fuel + 1, n, s =>
    if cfg.maxIterations ≠ 0 && cfg.maxIterations ≤ n then some s.conclude
    else if cfg.cancelAfter.any (fun limit => decide (limit ≤ n)) then
      some (s.breakOff .canceled)
    else do
      let (outcome, scheduler) ← s.run.scheduler.startRun? fuel n
      let s := { s with run := { s.run with scheduler } }
      match outcome with
      | .error e => return s.breakOff (.scheduler e)
      | .ok .haltSearch =>
        return { s with result := { s.result with complete := true } }.conclude
      | .ok _ =>
        match ← doRun? cfg fuel s n with
        | .error finished => return finished
        | .ok s => loop cfg fuel (n + 1) s

/-- A search at its start. -/
def new (p : Program) (scheduler : Scheduler) : Search :=
  { run := { scheduler, machine := .ofProgram p }, result := .initial p.name, coverage := .empty,
    published := [], measured := [] }

/-- A scheduler that would not start: only the files are left. -/
def idle (files : Files) : Scheduler :=
  { engine := .initial, policy := .fifo, random := .ofSeed 0, debugDir := "", trace := [],
    replaying := false, executed := [], files }

/-- The search for a program, or how it ended before it began. -/
def prepare (p : Program) (cfg : Config) (files : Files) : Except Finished Search :=
  match Scheduler.new cfg.scheduler files with
  | .error e => .error ((new p (idle files)).breakOff (.scheduler e))
  | .ok scheduler =>
    let loaded :=
      if cfg.replayPath = "" then .ok scheduler else scheduler.replayTrace cfg.replayPath
    match loaded with
    | .error e => .error ((new p scheduler).breakOff (.scheduler e))
    | .ok scheduler =>
      if p.isValid then .ok (new p scheduler)
      else .error ((new p scheduler).breakOff (.invalid p.faults))

/-- A whole search: `none` if the fuel does not suffice. -/
def run? (fuel : Nat) (p : Program) (cfg : Config) (files : Files) : Option Finished :=
  match prepare p cfg files with
  | .error finished => some finished
  | .ok s => loop cfg fuel 0 s

end Search

end Interleaving
