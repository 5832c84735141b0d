import Interleaving.Event.Attribute
import Interleaving.Event.Key
import Interleaving.Event.Kind

/-!
# Events

One observed action of the program under test: its key, its kind, the memory location it concerns
and its attributes. An event that is not yet part of a graph has place `-1` in its task and stamp
`-1` in the total order.
-/

namespace Interleaving

/-- A memory location of one run. -/
abbrev Location := Int

namespace Location

/-- The location of an event that touches no memory. -/
def none : Location := 0

/-- The location shared by the events of a thread's life; it takes no part in coherency. -/
def thread : Location := -1

end Location

/-- One observed action. -/
structure Event where
  key : Key
  kind : Kind
  location : Location
  /-- The number of events before it in the total order when it was added. -/
  stamp : Int
  attributes : Attributes
deriving DecidableEq

namespace Event

/-- The name of the attribute with the task that spawned a thread. -/
def startedByName : String := "started_by"

/-- The name of the attribute with the task that was joined. -/
def joinedTaskName : String := "joined_task"

/-- The name of the attribute with the message of an error. -/
def messageName : String := "message"

/-- The name of the attribute that marks a lock acquisition which has overtaken another one. -/
def finalLockWriteName : String := "final_lock_write"

/-- The name of the attribute with the truth value of an assumption. -/
def resultName : String := "result"

/-- The name of the attribute with a written value. -/
def valueName : String := "value"

/-- A new event of a task, not yet part of a graph. -/
def new (task : Int) (kind : Kind) (location : Location) : Event :=
  { key := ⟨task, -1⟩, kind, location, stamp := -1, attributes := .empty }

/-- The event before all others. -/
def initial : Event :=
  { key := .init, kind := .init, location := .none, stamp := 0, attributes := .empty }

/-- The task of the event. -/
def task (e : Event) : Int := e.key.task

/-- Whether the event touches memory or the life of a thread. -/
def hasLocation (e : Event) : Bool := e.location != .none

/-- The event with an attribute. -/
def set (e : Event) (name : String) (v : Attribute) : Event :=
  { e with attributes := e.attributes.set name v }

/-- The task that spawned the thread whose start this is. -/
def startedBy? (e : Event) : Option Int := e.attributes.task? startedByName

/-- The task that this join waited for. -/
def joinedTask? (e : Event) : Option Int := e.attributes.task? joinedTaskName

/-- The truth value of an assumption; `false` when there is none. -/
def holds (e : Event) : Bool := (e.attributes.bool? resultName).getD false

/-- The message of an error; empty when there is none. -/
def message (e : Event) : String := (e.attributes.text? messageName).getD ""

/-- Whether this lock acquisition has overtaken another one. -/
def isFinalLockWrite (e : Event) : Bool := (e.attributes.bool? finalLockWriteName).getD false

end Event

end Interleaving
