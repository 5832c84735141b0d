import Interleaving.Event.Observation
import Interleaving.Exploration.Selection
import Interleaving.Files
import Interleaving.Graph.Snapshot
import Interleaving.Random

/-!
# The scheduler of a search

The scheduler stands between a running program and the engine. It turns observations into events for
the engine and says which task takes the next step: a loaded trace decides first, then the schedule
that the engine replays, and after that a policy over the tasks that the graph allows and the
program can run.

With a directory for debugging the graph is written out at the start and at the end of every run,
and completed runs are checked.
-/

namespace Interleaving

/-- How a task is picked when no schedule decides. -/
inductive Policy where
  /-- The lowest task. -/
  | fifo
  /-- Any task, by a seeded generator. -/
  | random
deriving DecidableEq

namespace Policy

/-- The name of a policy. -/
def name : Policy → String
  | .fifo => "fifo"
  | .random => "random"

/-- The policy with a name. -/
def ofName? (s : String) : Option Policy :=
  if s = "fifo" then some .fifo else if s = "random" then some .random else none

/-- The message about a name that no policy has. -/
def unknownName (s : String) : String :=
  "unknown scheduling policy " ++ Text.quote s ++ " (want " ++ Text.quote fifo.name ++ " or " ++
    Text.quote random.name ++ ")"

end Policy

/-- The settings of a scheduler. -/
structure SchedulerConfig where
  /-- The name of the policy; the empty name stands for the default. -/
  policy : String
  seed : UInt64
  /-- The directory for debugging; empty when there is none. -/
  debugDir : String

/-- The scheduler of a search. -/
structure Scheduler where
  engine : Engine
  policy : Policy
  random : Random
  debugDir : String
  /-- What is left of a loaded trace. -/
  trace : List Directive
  /-- Whether a loaded trace replaces the exploration. -/
  replaying : Bool
  /-- The directives given out in the current run. -/
  executed : List Directive
  /-- The files that are read and written. -/
  files : Files

namespace Scheduler

/-- Why the scheduler breaks off. -/
inductive Error where
  | unknownPolicy (name : String)
  | debugDirectory (cause : Files.Error)
  | dump (iteration : Int) (path : String) (cause : Files.Error)
  | engine (cause : Engine.Error)
  | observation (cause : Observation.Error)
  | writeTrace (path : String) (cause : Files.Error)
  | readTrace (path : String) (cause : Files.Error)
  | invalidTrace (path : String) (cause : Directive.DecodeError)
deriving DecidableEq

/-- The message about a graph that could not be written. -/
def graphFileMessage (path : String) (cause : Files.Error) : String :=
  "failed to write execution graph to " ++ path ++ ": " ++ cause.message

/-- The message of a failure. -/
def Error.message (say : Wording) : Error → String
  | .unknownPolicy name => Policy.unknownName name
  | .debugDirectory cause => "failed to create debug directory: " ++ cause.message
  | .dump iteration path cause =>
    "failed to dump graph of iteration " ++ Text.decimal iteration ++ ": " ++
      graphFileMessage path cause
  | .engine cause => cause.message
  | .observation cause => cause.message
  | .writeTrace path cause => "failed to write trace " ++ path ++ ": " ++ cause.message
  | .readTrace path cause => "failed to read trace " ++ path ++ ": " ++ cause.message
  | .invalidTrace path cause => "invalid trace " ++ path ++ ": " ++ cause.message say

/-- The name of the file that holds a trace. -/
def traceFile : String := "replay.json"

/-- A new scheduler, or the reason why there is none. -/
def new (cfg : SchedulerConfig) (files : Files) : Except Error Scheduler :=
  match Policy.ofName? (if cfg.policy = "" then Policy.fifo.name else cfg.policy) with
  | none => .error (.unknownPolicy cfg.policy)
  | some policy =>
    let ready (files : Files) : Scheduler :=
      { engine := .initial, policy, random := .ofSeed cfg.seed, debugDir := cfg.debugDir,
        trace := [], replaying := false, executed := [], files }
    if cfg.debugDir = "" then .ok (ready files)
    else
      match files.makeDirectories cfg.debugDir with
      | .error e => .error (.debugDirectory e)
      | .ok files => .ok (ready files)

/-- Writes the current graph into the directory for debugging. -/
def dump (s : Scheduler) (stage : String) (n : Int) : Except Error Scheduler :=
  let path := Files.join s.debugDir (stage ++ "-" ++ Text.decimal n ++ ".json")
  match s.files.write path s.engine.graph.fileText with
  | .ok files => .ok { s with files }
  | .error e => .error (.dump n path e)

/-- Takes over how the engine has prepared a run. With a directory for debugging, the graph that the
run starts from goes into it. -/
def prepared (s : Scheduler) (n : Int) :
    Except Engine.Error Outcome × Engine → Except Error Outcome × Scheduler
  | (.error e, engine) => (.error (.engine e), { s with engine })
  | (.ok outcome, engine) =>
    let s := { s with engine }
    if s.debugDir ≠ "" && outcome.isProceed then
      match s.dump "iteration-guiding" n with
      | .ok s => (.ok outcome, s)
      | .error e => (.error e, s)
    else (.ok outcome, s)

/-- Prepares a run: `none` if the fuel does not suffice for the engine. A loaded trace is a single
run. -/
def startRun? (fuel : Nat) (s : Scheduler) (n : Int) : Option (Except Error Outcome × Scheduler) :=
  let s := { s with executed := [] }
  if s.replaying then some (.ok (if n = 0 then .proceed else .haltSearch), s)
  else (s.engine.startRun? fuel n).map (s.prepared n)

/-- Closes a run. With a directory for debugging, a completed run must pass the check of completed
executions. -/
def finishRun (s : Scheduler) (n : Int) (completed : Bool) : Except Error Unit × Scheduler :=
  if s.replaying then (.ok (), s)
  else
    let s := { s with engine := s.engine.resetRun }
    if s.debugDir = "" then (.ok (), s)
    else
      match s.dump "iteration-complete" n with
      | .error e => (.error e, s)
      | .ok s =>
        if !completed then (.ok (), s)
        else
          match s.engine.graph.checkExtensive with
          | .ok _ => (.ok (), s)
          | .error e => (.error (.engine ⟨.extensiveCheck n, .graph e⟩), s)

/-- The integers in increasing order. -/
def sortTasks (ts : List Int) : List Int := Sorting.sort (fun a b => decide (a ≤ b)) ts

/-- The tasks that may be picked, numbered from one: those that can run, and unless a trace is
replayed also only those that the graph allows. -/
def candidates (s : Scheduler) (active : List Int) : List Int :=
  if s.replaying then sortTasks active
  else
    sortTasks ((s.engine.schedulableTasks.map (· + 1)).filter fun t => active.contains t)

/-- Picks a task by the policy. -/
def pick (s : Scheduler) (active : List Int) : Option Directive × Scheduler :=
  match s.candidates active with
  | [] => (none, s)
  | first :: more =>
    match s.policy with
    | .fifo => (some (.run first), s)
    | .random =>
      let (i, random) := s.random.below (more.length + 1)
      (some (.run ((first :: more)[i]?.getD first)), { s with random })

/-- The next directive, not yet noted as given out. -/
def choose (s : Scheduler) (active : List Int) : Option Directive × Scheduler :=
  if s.replaying then
    match s.trace with
    | d :: rest => (some d, { s with trace := rest })
    | [] => s.pick active
  else
    match s.engine.nextDirective with
    | (some d, engine) => (some d, { s with engine })
    | (none, engine) => { s with engine }.pick active

/-- The next directive; `active` lists the tasks that can run, numbered from one. Nothing can be
scheduled when there is none. -/
def next (s : Scheduler) (active : List Int) : Option Directive × Scheduler :=
  match s.choose active with
  | (some d, s) => (some d, { s with executed := s.executed ++ [d] })
  | (none, s) => (none, s)

/-- What an event means while a trace is replayed: only the end of a run and errors count. -/
def replayOutcome (e : Event) : Outcome :=
  if e.kind = .error then .haltError e.message
  else if e.kind = .finish then .haltOk
  else .proceed

/-- Hands events to the engine, up to the first one after which the run does not go on. -/
def updateEvents (s : Scheduler) : List Event → Except Error Outcome × Scheduler
  | [] => (.ok .proceed, s)
  | e :: more =>
    if s.replaying then
      let outcome := replayOutcome e
      if outcome.isProceed then updateEvents s more else (.ok outcome, s)
    else
      let (result, engine) := s.engine.update e
      let s := { s with engine }
      match result with
      | .error e => (.error (.engine e), s)
      | .ok outcome => if outcome.isProceed then updateEvents s more else (.ok outcome, s)

/-- Processes an observation of the running program. -/
def update (s : Scheduler) (o : Observation) : Except Error Outcome × Scheduler :=
  match o.events with
  | .error e => (.error (.observation e), s)
  | .ok events => s.updateEvents events

/-- Lets go of the state of the engine. -/
def teardown (s : Scheduler) : Scheduler :=
  { s with engine := s.engine.teardown, trace := [], executed := [] }

/-- Writes a trace file: the given directives, or those that replay the current graph. -/
def recordTrace (s : Scheduler) (path : String) (choices : Option (List Directive)) :
    Except Error Scheduler := do
  let choices ← match choices with
    | some ds => pure ds
    | none => (s.engine.taskSchedule).mapError .engine
  match s.files.write path (Directive.encode choices) with
  | .ok files => return { s with files }
  | .error e => throw (.writeTrace path e)

/-- Loads a trace file, which the next run follows in place of exploring. -/
def replayTrace (s : Scheduler) (path : String) : Except Error Scheduler :=
  match s.files.read path with
  | .error e => .error (.readTrace path e)
  | .ok content =>
    match Directive.decode content with
    | .error e => .error (.invalidTrace path e)
    | .ok ds => .ok { s with trace := ds, replaying := true }

end Scheduler

end Interleaving
