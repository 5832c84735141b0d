import Interleaving.Event.Basic

/-!
# Observations

What a running program reports about its steps, before it becomes events. Tasks are numbered from
one here and from zero in events. One observation becomes one event, or two for an atomic update and
for a lock acquisition, the read first (`Interleaving.Observation.events`).
-/

namespace Interleaving

/-- What a step did. -/
inductive Observation.Kind where
  | threadStart
  | threadFinish
  | threadJoinComplete
  | read
  | write
  | readModifyWrite
  | lockAcquire
  | lockAcquired
  | lockRelease
  | assume
  | assertFailure
  | halt
  /-- A report with a name that has no meaning here. -/
  | other (name : String)
deriving DecidableEq

/-- The name of what a step did. -/
def Observation.Kind.name : Observation.Kind → String
  | .threadStart => "thread_start"
  | .threadFinish => "thread_finish"
  | .threadJoinComplete => "thread_join_complete"
  | .read => "read"
  | .write => "write"
  | .readModifyWrite => "read_modify_write"
  | .lockAcquire => "lock_acquire"
  | .lockAcquired => "lock_acquired"
  | .lockRelease => "lock_release"
  | .assume => "assume"
  | .assertFailure => "assert_failure"
  | .halt => "halt"
  | .other name => name

/-- The kinds that have a meaning. -/
def Observation.Kind.known : List Observation.Kind :=
  [.threadStart, .threadFinish, .threadJoinComplete, .read, .write, .readModifyWrite, .lockAcquire,
    .lockAcquired, .lockRelease, .assume, .assertFailure, .halt]

/-- The kind with a name. -/
def Observation.Kind.ofName (s : String) : Observation.Kind :=
  (known.find? fun k => k.name == s).getD (.other s)

/-- A report of one step. -/
structure Observation where
  task : Int
  kind : Observation.Kind
  parameters : Attributes
deriving DecidableEq

namespace Observation

/-- The name of the parameter with a location. -/
def locationName : String := "location"

/-- Why a report cannot become events. -/
inductive Error where
  | invalidTask (kind : Kind) (task : Int)
  | missingSpawner (task : Int)
  | missingJoined (task : Int)
  | missingResult (task : Int)
  | invalidLocation (kind : Kind) (task : Int)
  | unsupported (kind : Kind)
deriving DecidableEq

/-- The message about a report that cannot become events. -/
def Error.message : Error → String
  | .invalidTask kind task =>
    "runtime event " ++ kind.name ++ " has invalid task id " ++ Text.decimal task
  | .missingSpawner task =>
    "thread start of task " ++ Text.decimal task ++ " is missing " ++ Text.quote Event.startedByName
  | .missingJoined task =>
    "thread join of task " ++ Text.decimal task ++ " is missing " ++
      Text.quote Event.joinedTaskName
  | .missingResult task =>
    "assume of task " ++ Text.decimal task ++ " is missing " ++ Text.quote Event.resultName
  | .invalidLocation kind task =>
    kind.name ++ " event of task " ++ Text.decimal task ++ " has no valid " ++
      Text.quote locationName
  | .unsupported kind => "unsupported runtime event kind " ++ Text.quote kind.name

/-- The start of a thread, spawned by a task. -/
def threadStart (task parent : Int) : Observation :=
  ⟨task, .threadStart, Attributes.empty.set Event.startedByName (.int parent)⟩

/-- A step on a memory location. -/
def memory (task : Int) (kind : Kind) (location : Location) : Observation :=
  ⟨task, kind, Attributes.empty.set locationName (.int location)⟩

/-- A step that showed an error of the program. -/
def assertFailure (task : Int) (message : String) : Observation :=
  ⟨task, .assertFailure, Attributes.empty.set Event.messageName (.text message)⟩

/-- The end of a thread. -/
def threadFinish (task : Int) : Observation := ⟨task, .threadFinish, .empty⟩

/-- The end of a wait for another task. -/
def threadJoin (task target : Int) : Observation :=
  ⟨task, .threadJoinComplete, Attributes.empty.set Event.joinedTaskName (.int target)⟩

/-- The test of an assumption. -/
def assume (task : Int) (result : Bool) : Observation :=
  ⟨task, .assume, Attributes.empty.set Event.resultName (.bool result)⟩

/-- The end of a run in which every task has finished. -/
def halt (task : Int) : Observation := ⟨task, .halt, .empty⟩

/-- The location that a step concerns. -/
def location? (o : Observation) : Except Error Location :=
  match o.parameters.int? locationName with
  | some n => if n ≤ 0 then .error (.invalidLocation o.kind o.task) else .ok n
  | none => .error (.invalidLocation o.kind o.task)

/-- A write with the value that the report carries, if it carries one. -/
def withValue (o : Observation) (e : Event) : Event :=
  match o.parameters.get? Event.valueName with
  | some v => e.set Event.valueName v
  | none => e

/-- The events of a report. -/
def events (o : Observation) : Except Error (List Event) :=
  if o.task < 1 then .error (.invalidTask o.kind o.task)
  else
    let task := o.task - 1
    match o.kind with
    | .threadStart =>
      match o.parameters.int? Event.startedByName with
      | some parent =>
        .ok [(Event.new task .threadStart .thread).set Event.startedByName
          (.task (Word.wrap (parent - 1)))]
      | none => .error (.missingSpawner o.task)
    | .threadFinish => .ok [Event.new task .threadFinish .thread]
    | .threadJoinComplete =>
      match o.parameters.int? Event.joinedTaskName with
      | some target =>
        .ok [(Event.new task .threadJoin .thread).set Event.joinedTaskName
          (.task (Word.wrap (target - 1)))]
      | none => .error (.missingJoined o.task)
    | .read => o.location?.map fun loc => [Event.new task .read loc]
    | .write => o.location?.map fun loc => [o.withValue (Event.new task .write loc)]
    | .readModifyWrite =>
      o.location?.map fun loc =>
        [Event.new task .readExclusive loc, o.withValue (Event.new task .writeExclusive loc)]
    | .lockAcquire =>
      o.location?.map fun loc =>
        [Event.new task .lockAcquireRead loc, Event.new task .lockAcquireWrite loc]
    | .lockAcquired => o.location?.map fun loc => [Event.new task .lockAcquired loc]
    | .lockRelease => o.location?.map fun loc => [Event.new task .lockReleaseWrite loc]
    | .assume =>
      match o.parameters.bool? Event.resultName with
      | some result =>
        .ok [(Event.new task .assume .none).set Event.resultName (.bool result)]
      | none => .error (.missingResult o.task)
    | .assertFailure =>
      .ok [(Event.new task .error .none).set Event.messageName
        (.text ((o.parameters.text? Event.messageName).getD ""))]
    | .halt => .ok [Event.new task .finish .none]
    | .other name => .error (.unsupported (.other name))

end Observation

end Interleaving
