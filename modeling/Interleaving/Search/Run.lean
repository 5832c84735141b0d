import Interleaving.Exploration.Scheduler
import Interleaving.Machine.Step
import Interleaving.Search.Result

/-!
# Runs

A run lets the scheduler drive the machine: the scheduler names a task, the machine takes a step of
that task, and the scheduler learns what was observed, until an outcome ends the run or nothing can
be scheduled any more. In the latter case the program has come to its end, or it is **deadlocked**,
which is an error, or the graph blocks every task that could go on.

`Interleaving.Run.advance` is one turn of this loop, and `Interleaving.Run.finish` repeats it up to
a bound.
-/

namespace Interleaving

/-- Why a search breaks off. -/
inductive Search.Error where
  | scheduler (cause : Scheduler.Error)
  | machine (cause : Machine.Error)
  | invalid (faults : List Program.Fault)
  /-- The schedule names a task that cannot run. -/
  | inactive (directive : Directive) (active : List Int)
  /-- The search was told to stop. -/
  | canceled
  /-- The program showed an error. -/
  | bugFound (message : String)
deriving DecidableEq

/-- The message about a search that broke off. -/
def Search.Error.message (say : Wording) : Search.Error → String
  | .scheduler cause => cause.message say
  | .machine cause => cause.message say
  | .invalid faults => Program.faultsMessage faults
  | .inactive directive active =>
    "internal invariant violated: scheduled " ++ directive.text ++ " but active tasks are [" ++
      " ".intercalate (active.map Text.decimal) ++ "]"
  | .canceled => "context canceled"
  | .bugFound message => "bug found: " ++ message

/-- A scheduler and the machine that it drives. -/
structure Run where
  scheduler : Scheduler
  machine : Machine

namespace Run

/-- How a run stands. -/
inductive Progress where
  | going
  | ended (status : Status) (message : String)
  | failed (error : Search.Error)

/-- The end of a run by an outcome. -/
def endBy (o : Outcome) : Progress :=
  .ended (.ofOutcome o) (match o with | .haltError message => message | _ => "")

/-- Whether an outcome ends a run that is under way: stopping one task does not. -/
def ends : Outcome → Bool
  | .proceed => false
  | .haltTask _ => false
  | _ => true

/-- Tells the scheduler what was observed, up to the first outcome that ends the run. -/
def tell (ending : Outcome → Bool) (r : Run) : List Observation → Progress × Run
  | [] => (.going, r)
  | o :: rest =>
    match r.scheduler.update o with
    | (.error e, scheduler) => (.failed (.scheduler e), { r with scheduler })
    | (.ok outcome, scheduler) =>
      let r := { r with scheduler }
      if ending outcome then (endBy outcome, r) else r.tell ending rest

/-- Starts the run with a number. -/
def start (r : Run) (n : Int) : Progress × Run :=
  let (observed, machine) := r.machine.reset n
  { r with machine }.tell (fun o => !o.isProceed) observed

/-- The message about a deadlock. -/
def deadlockMessage : String := "deadlock: no task can make progress"

/-- Reports the end of a run in which nothing can be scheduled. -/
def close (r : Run) (o : Observation) : Progress × Run :=
  match r.scheduler.update o with
  | (.error e, scheduler) => (.failed (.scheduler e), { r with scheduler })
  | (.ok outcome, scheduler) => (endBy outcome, { r with scheduler })

/-- Takes a step of a task. -/
def stepTask (r : Run) (task : Int) : Progress × Run :=
  match r.machine.step task with
  | (.error e, machine) => (.failed (.machine e), { r with machine })
  | (.ok observed, machine) => { r with machine }.tell ends observed

/-- Follows a directive. -/
def follow (r : Run) (d : Directive) (active : List Int) : Progress × Run :=
  match d.kind with
  | .blockTask => (.going, r)
  | .blockExecution => (.ended .blocked "", r)
  | .finish => (.going, r)
  | _ =>
    if r.machine.isActive d.task then r.stepTask d.task else (.failed (.inactive d active), r)

/-- One turn of the run. -/
def advance (r : Run) : Progress × Run :=
  let active := r.machine.active
  match r.scheduler.next active with
  | (some d, scheduler) => { r with scheduler }.follow d active
  | (none, scheduler) =>
    let r := { r with scheduler }
    if r.machine.isDone then r.close (.halt 1)
    else if active.isEmpty then r.close (.assertFailure 1 deadlockMessage)
    else (.ended .blocked "", r)

/-- Turns of the run up to its end, unless the fuel runs out. -/
def finish : Nat → Progress × Run → Option (Progress × Run)
  | 0, _ => none
  | fuel + 1, (.going, r) => finish fuel r.advance
  | _ + 1, ended => some ended

end Run

end Interleaving
