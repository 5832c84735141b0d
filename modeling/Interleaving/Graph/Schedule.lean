import Interleaving.Detail
import Interleaving.Event.Basic
import Interleaving.Json.Decode
import Interleaving.Json.Parser
import Interleaving.Json.Printer

/-!
# Schedules

A schedule tells a running program which task takes the next step. `Interleaving.Schedule.ofEvents`
turns a topological order of events into the directives that replay it, and
`Interleaving.Directive.encode` and `Interleaving.Directive.decode` write and read directives as a
trace file. Tasks are numbered from one in directives.
-/

namespace Interleaving

/-- What a directive asks for. -/
inductive Directive.Kind where
  /-- A task takes a step. -/
  | task
  /-- A task stays where it is. -/
  | blockTask
  /-- The run is cut short. -/
  | blockExecution
  /-- The schedule is over. -/
  | finish
  /-- A name without a meaning. -/
  | other (name : String)
deriving DecidableEq

/-- The name of what a directive asks for. -/
def Directive.Kind.name : Directive.Kind → String
  | .task => "task"
  | .blockTask => "block_task"
  | .blockExecution => "block_execution"
  | .finish => "end"
  | .other name => name

/-- What a name asks for. -/
def Directive.Kind.ofName (s : String) : Directive.Kind :=
  if s = "task" then .task
  else if s = "block_task" then .blockTask
  else if s = "block_execution" then .blockExecution
  else if s = "end" then .finish
  else .other s

/-- One instruction to the scheduler of a run. -/
structure Directive where
  kind : Directive.Kind
  task : Int
deriving DecidableEq

namespace Directive

/-- Lets a task take a step. -/
def run (task : Int) : Directive := ⟨.task, task⟩

/-- Lets a task stay where it is. -/
def blockTask (task : Int) : Directive := ⟨.blockTask, task⟩

/-- Cuts the run short. -/
def blockExecution : Directive := ⟨.blockExecution, 0⟩

/-- The end of a schedule. -/
def finish : Directive := ⟨.finish, 0⟩

/-- Whether the directive names a task. -/
def hasTask (d : Directive) : Bool := d.kind = .task || d.kind = .blockTask

/-- The text of a directive. -/
def text (d : Directive) : String :=
  if d.hasTask then d.kind.name ++ "(" ++ Text.decimal d.task ++ ")" else d.kind.name

/-- What is wrong with a directive. -/
inductive Fault where
  | missingTask (kind : Kind) (task : Int)
  | unknown (name : String)
deriving DecidableEq

/-- The message about a directive. -/
def Fault.message : Fault → String
  | .missingTask kind task =>
    kind.name ++ " directive needs a task id >= 1, got " ++ Text.decimal task
  | .unknown name => "unknown scheduling directive " ++ Text.quote name

/-- What is wrong with a directive, if anything. -/
def fault? (d : Directive) : Option Fault :=
  match d.kind with
  | .task => if d.task < 1 then some (.missingTask d.kind d.task) else none
  | .blockTask => if d.task < 1 then some (.missingTask d.kind d.task) else none
  | .blockExecution => none
  | .finish => none
  | .other name => some (.unknown name)

/-- A directive as JSON; a task numbered zero is left out. -/
def toJson (d : Directive) : Json :=
  .object (("kind", .text d.kind.name) ::
    if d.task = 0 then [] else [("task", .ofInt d.task)])

/-- A trace file. -/
def encode (ds : List Directive) : String := (Json.array (ds.map toJson)).indented

/-- Why a text is no trace. -/
inductive DecodeError where
  | malformed
  | invalid (index : Nat) (fault : Fault)
deriving DecidableEq

/-- The message about a text that is no trace. -/
def DecodeError.message (say : Wording) : DecodeError → String
  | .malformed => "failed to decode schedule: " ++ say (.document "not a list of directives")
  | .invalid index fault => "schedule entry " ++ Nat.repr index ++ ": " ++ fault.message

/-- Reads a member of a directive: its kind's name or its task. -/
def readField? (name : String) (v : Json) (old : String × Int) : Option (String × Int) :=
  if name = "kind" then (Json.readString? v old.1).map fun s => (s, old.2)
  else if name = "task" then (Json.readInt? v old.2).map fun n => (old.1, n)
  else some old

/-- Reads a directive. -/
def ofJson? (v : Json) : Option Directive :=
  (Json.readRecord? readField? v ("", 0)).map fun (name, task) => ⟨Kind.ofName name, task⟩

/-- The first fault among directives numbered from `index` on. -/
def firstFault? : Nat → List Directive → Option (Nat × Fault)
  | _, [] => none
  | index, d :: ds =>
    match d.fault? with
    | some f => some (index, f)
    | none => firstFault? (index + 1) ds

/-- Reads a trace file. -/
def decode (s : String) : Except DecodeError (List Directive) :=
  match (Json.parse? s).bind (Json.readList? ofJson?) with
  | none => .error .malformed
  | some ds? =>
    let ds := ds?.getD []
    match firstFault? 0 ds with
    | some (index, f) => .error (.invalid index f)
    | none => .ok ds

end Directive

/-- A directive together with the location of the event that the directive before it produced. A
replay sees by the location that a run numbers its memory differently. -/
structure ScheduleEntry where
  directive : Directive
  location : Location
deriving DecidableEq

/-- Whether the entry carries a location. -/
def ScheduleEntry.hasLocation (e : ScheduleEntry) : Bool := e.location != .none

namespace Schedule

/-- Whether the second event is the other half of the exclusive read before it. -/
def completes (read write : Event) : Bool :=
  write.key.task = read.key.task && read.kind.pairsWith write.kind

/-- The events without the second halves of exclusive pairs: both halves come from one step. -/
def steps : List Event → List Event
  | [] => []
  | [e] => [e]
  | e :: next :: more => if completes e next then e :: steps more else e :: steps (next :: more)

/-- The directives for the events of steps; `prev` is the location of the event before. The start of
a thread comes from a step of the task that spawned it, and a join from two steps. -/
def entries (prev : Location) : List Event → List ScheduleEntry
  | [] => [⟨.finish, prev⟩]
  | e :: more =>
    let task := Word.wrap (e.key.task + 1)
    match e.kind with
    | .block =>
      let d := if e.key.task < 0 then Directive.blockExecution else .blockTask task
      ⟨d, prev⟩ :: entries e.location more
    | .threadStart =>
      ⟨.run (Word.wrap (e.startedBy?.getD 0 + 1)), prev⟩ :: entries e.location more
    | .threadJoin => ⟨.run task, prev⟩ :: ⟨.run task, e.location⟩ :: entries .none more
    | _ => ⟨.run task, prev⟩ :: entries e.location more

/-- The directives that replay events in topological order. The first event and the start of the
main task come before any scheduling. -/
def ofEvents (events : List Event) : List ScheduleEntry :=
  if events.length ≤ 2 then [⟨.finish, .none⟩] else entries .none (steps (events.drop 2))

/-- The directives without the locations. -/
def directives (es : List ScheduleEntry) : List Directive := es.map (·.directive)

end Schedule

end Interleaving
