import Interleaving.Exploration.Alternative
import Interleaving.Exploration.Outcome
import Interleaving.Graph.Consistency
import Interleaving.Graph.Schedule
import Interleaving.Location
import Interleaving.Revisit.Lock

/-!
# The state of an exploration

The engine records the events of a run in a graph and keeps a stack of alternatives. At the start of
a later run it has a schedule that leads the run to an alternative; while the schedule lasts, events
are only compared with it.

Operations run in `Interleaving.Engine.Step`, which keeps what was done before a failure. A failure
is never a property of the checked program; it means that a rule of the engine is broken.
-/

namespace Interleaving

/-- What an exploration has done and has to do. -/
structure Engine where
  graph : Graph
  agenda : Agenda
  locations : LocationTable
  guiding : List ScheduleEntry
  isGuided : Bool
  /-- A task that must be blocked before anything else is scheduled. -/
  mustBlock : Option Int
  popped : Tally
  inconsistent : Nat

namespace Engine

/-- What the engine was doing when a rule was broken. -/
inductive Operation where
  | updateEvent (kind : Kind)
  | process (kind : Alternative.Kind)
  | taskSchedule
  | extensiveCheck (iteration : Int)
deriving DecidableEq

/-- The text of an operation. -/
def Operation.text : Operation → String
  | .updateEvent kind => "update event " ++ kind.name
  | .process kind => "process " ++ kind.name
  | .taskSchedule => "task schedule"
  | .extensiveCheck iteration => "extensive check of iteration " ++ Text.decimal iteration

/-- How a rule was broken. -/
inductive Cause where
  | graph (cause : Graph.Error)
  | revisit (cause : Revisit.Error)
  | alternative (cause : Alternative.Error)
  | missingGraph
  | unexpectedKind (kind : Kind)
  | unexpectedAlternative (kind : Alternative.Kind)
  | unexpectedAdditional (kind : Kind)
  | manyAdditional (kind : Alternative.Kind) (count : Nat)
  | inconsistentGraph
deriving DecidableEq

/-- The text of a cause. -/
def Cause.message : Cause → String
  | .graph cause => cause.message
  | .revisit cause => cause.message
  | .alternative cause => cause.message
  | .missingGraph => "item has no graph"
  | .unexpectedKind kind => "unexpected event kind " ++ kind.name
  | .unexpectedAlternative kind => "unexpected item kind " ++ kind.name
  | .unexpectedAdditional kind => "unexpected additional event " ++ kind.name
  | .manyAdditional kind count =>
    kind.name ++ " item carries " ++ Nat.repr count ++ " additional events"
  | .inconsistentGraph => "current graph is inconsistent"

/-- A broken rule of the engine. -/
structure Error where
  operation : Operation
  cause : Cause
deriving DecidableEq

/-- What every report of a broken rule starts with. -/
def Error.heading : String := "internal invariant violated"

/-- The message of a broken rule. -/
def Error.message (e : Error) : String :=
  Error.heading ++ ": " ++ e.operation.text ++ ": " ++ e.cause.message

/-- A computation that changes the engine and may break off. -/
abbrev Step (α : Type) := EStateM Cause Engine α

/-- The engine before the first run. -/
def initial : Engine :=
  { graph := .initial, agenda := .empty, locations := .initial, guiding := [], isGuided := false,
    mustBlock := none, popped := [], inconsistent := 0 }

/-- Counts of what an exploration has done. -/
structure Stats where
  popped : Tally
  pushed : Tally
  inconsistent : Nat
  pending : Nat

/-- What the exploration has done so far. -/
def stats (a : Engine) : Stats :=
  { popped := a.popped, pushed := a.agenda.pushed, inconsistent := a.inconsistent,
    pending := a.agenda.size }

/-- Whether a schedule is being replayed. -/
def isGuiding (a : Engine) : Bool := a.isGuided && !a.guiding.isEmpty

/-! ### Steps on the graph -/

/-- Changes the graph. -/
def modifyGraph (f : Graph → Graph) : Step Unit :=
  modify fun a => { a with graph := f a.graph }

/-- Runs a computation on the graph, which keeps its changes also when it fails. -/
def onGraph {α : Type} (edit : Graph.Edit α) : Step α := fun a =>
  match edit.run a.graph with
  | .ok x g => .ok x { a with graph := g }
  | .error e g => .error (.graph e) { a with graph := g }

/-- Changes the graph unless the change is refused. -/
def changeGraph (f : Graph → Except Graph.Error Graph) : Step Unit :=
  onGraph (BackwardRevisit.change f)

/-- The answer to a question about the graph. -/
def ask {α : Type} (f : Graph → Except Graph.Error α) : Step α := do
  match f (← get).graph with
  | .ok x => return x
  | .error e => throw (.graph e)

/-- Puts an alternative on the stack. -/
def push (item : Alternative) : Step Unit :=
  modify fun a => { a with agenda := a.agenda.push item }

/-- Asks for a task to be blocked before anything else is scheduled. -/
def requestBlock (task : Int) : Step Unit :=
  modify fun a => { a with mustBlock := some task }

/-! ### Between events -/

/-- The next directive of the schedule being replayed. A task that must be blocked goes first;
`none` means that the caller picks a task. -/
def nextDirective (a : Engine) : Option Directive × Engine :=
  match a.mustBlock with
  | some task => (some (.blockTask (Word.wrap (task + 1))), { a with mustBlock := none })
  | none =>
    if a.isGuiding then
      match a.guiding with
      | [] => (none, a)
      | entry :: rest =>
        (some entry.directive, { a with guiding := rest, isGuided := !rest.isEmpty })
    else (none, a)

/-- The tasks that may take a step, numbered from zero. -/
def schedulableTasks (a : Engine) : List Int := a.graph.unblockedTasks

/-- Drops what belongs to a run that has ended. -/
def resetRun (a : Engine) : Engine :=
  { a with guiding := [], isGuided := false, mustBlock := none }

/-- Lets go of the graph, the stack and the locations. -/
def teardown (a : Engine) : Engine :=
  { a with
    graph := .cleared
    agenda := a.agenda.clear
    locations := a.locations.clearAliases.clear
    guiding := []
    isGuided := false }

/-- The directives that replay the current graph. -/
def taskSchedule (a : Engine) : Except Error (List Directive) :=
  match a.graph.consistentOrder with
  | .error e => .error ⟨.taskSchedule, .graph e⟩
  | .ok none => .error ⟨.taskSchedule, .inconsistentGraph⟩
  | .ok (some sorted) =>
    .ok (Schedule.directives (Schedule.ofEvents (sorted.map (·.event))))

end Engine

end Interleaving
