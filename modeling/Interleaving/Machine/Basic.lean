import Interleaving.Detail
import Interleaving.Event.Observation
import Interleaving.Program.Validation

/-!
# The machine

A machine runs a program one atomic step at a time and never picks a task by itself: whoever drives
it decides which task steps next. Memory is **sequentially consistent**: a variable has one current
value, and every step sees the effects of all steps before it.

Tasks are numbered from one in the order in which they were spawned, task one runs the main thread.
Every run hands out location numbers in the order in which variables and locks are first touched,
from a base of its own, so that one variable has different numbers in different runs.
-/

namespace Interleaving

/-- What a location stands for. -/
inductive Place where
  | shared (name : String)
  | lock (name : String)
deriving DecidableEq

/-- Where a task stands besides its place in the code. -/
inductive Machine.TaskState where
  | ready
  /-- Waits until a task has finished. -/
  | joining (target : Int)
  /-- Waits until a lock is free. -/
  | waiting (lock : String)
  | finished
  /-- Stopped at an assumption that does not hold. -/
  | parked
  /-- Stopped at an error of the program. -/
  | failed
deriving DecidableEq

/-- The name of a state. -/
def Machine.TaskState.name : Machine.TaskState → String
  | .ready => "ready"
  | .joining _ => "joining"
  | .waiting _ => "lock_wait"
  | .finished => "finished"
  | .parked => "parked"
  | .failed => "failed"

/-- A task: a thread in execution. -/
structure Machine.TaskFrame where
  /-- The name of the thread. -/
  thread : String
  code : List Instruction
  /-- The number of instructions that are behind it. -/
  position : Nat
  state : Machine.TaskState
  registers : Dictionary Value
  /-- For every thread name the task that this one spawned last under it. -/
  children : Dictionary Int

/-- The state of a running program. -/
structure Machine where
  program : Program
  /-- The tasks in the order of their numbers, from one on. -/
  tasks : List Machine.TaskFrame
  memory : Dictionary Value
  /-- For every lock that is taken the task that holds it. -/
  holders : Dictionary Int
  /-- The numbers of the places touched so far. -/
  places : List (Place × Location)
  /-- The number that was given out last. -/
  lastLocation : Location

namespace Machine

/-- How far the location numbers of consecutive runs are apart. -/
def locationStride : Int := 0x10000

/-- A machine for a program, before the first run. -/
def ofProgram (p : Program) : Machine :=
  { program := p, tasks := [], memory := .empty, holders := .empty, places := [],
    lastLocation := 0 }

/-- A machine for a program, or the faults of the program. -/
def new (p : Program) : Except (List Program.Fault) Machine :=
  if p.isValid then .ok (ofProgram p) else .error p.faults

/-! ### Tasks -/

/-- The task with a number. -/
def task? (m : Machine) (id : Int) : Option TaskFrame :=
  if 1 ≤ id then m.tasks[(id - 1).toNat]? else none

/-- Replaces the task with a number. -/
def setTask (m : Machine) (id : Int) (t : TaskFrame) : Machine :=
  { m with tasks := m.tasks.set (id - 1).toNat t }

/-- The code of a thread. -/
def codeOf (ops : List Operation) : List Instruction := ops.filterMap Operation.instruction?

/-- A task at the start of a thread: all registers hold zero. -/
def TaskFrame.start (thread : String) (ops : List Operation) : TaskFrame :=
  { thread, code := codeOf ops, position := 0, state := .ready,
    registers := .ofList ((registersOf ops).map fun r => (r, .zero)), children := .empty }

/-- Adds a task for a thread; its number is the new number of tasks. -/
def spawn (m : Machine) (thread : String) : Machine :=
  { m with tasks := m.tasks ++ [.start thread ((m.program.threads.get? thread).getD [])] }

/-- Whether a task can take a step. -/
def canStep (m : Machine) (t : TaskFrame) : Bool :=
  match t.state with
  | .ready => true
  | .joining target =>
    match m.task? target with
    | some other => other.state = .finished
    | none => false
  | .waiting lock => !m.holders.has lock
  | _ => false

/-- Whether the task with a number can take a step. -/
def isActive (m : Machine) (id : Int) : Bool :=
  match m.task? id with
  | some t => m.canStep t
  | none => false

/-- The numbers of all tasks. -/
def taskIds (m : Machine) : List Int :=
  (List.range m.tasks.length).map fun i : Nat => (i : Int) + 1

/-- The tasks that can take a step, in increasing order. -/
def active (m : Machine) : List Int := m.taskIds.filter m.isActive

/-- Whether every task has come to an end. -/
def isDone (m : Machine) : Bool :=
  !m.tasks.isEmpty && m.tasks.all fun t => t.state = .finished || t.state = .parked

/-- Whether tasks are left that have not come to an end, and none of them can take a step. -/
def isDeadlocked (m : Machine) : Bool := !m.isDone && m.active.isEmpty

/-- The name of the thread that a task runs; empty when there is no such task. -/
def threadName (m : Machine) (id : Int) : String := ((m.task? id).map (·.thread)).getD ""

/-! ### Locations -/

/-- The number of a place that was touched. -/
def location? (m : Machine) (p : Place) : Option Location := m.places.lookup p

/-- The number of a place, the next one when it is touched for the first time. -/
def touch (m : Machine) (p : Place) : Location × Machine :=
  match m.location? p with
  | some loc => (loc, m)
  | none =>
    let loc := Word.wrap (m.lastLocation + 1)
    (loc, { m with places := m.places ++ [(p, loc)], lastLocation := loc })

/-! ### Runs -/

/-- The state at the start of a run, with what is observed of it. -/
def reset (m : Machine) (run : Int) : List Observation × Machine :=
  let m : Machine :=
    { program := m.program, tasks := [], memory := m.program.globals, holders := .empty,
      places := [], lastLocation := Word.wrap (locationStride * Word.wrap (run + 1)) }
  ([.threadStart 1 0], m.spawn Program.mainThread)

/-! ### Values -/

/-- Why a variable or register has no word. -/
inductive ValueError where
  | unknownVariable (name : String)
  | unknownRegister (task : Int) (name : String)
  | word (cause : Value.WordError)
deriving DecidableEq

/-- The message about a variable or register without a word. -/
def ValueError.message : ValueError → String
  | .unknownVariable name => "unknown variable '" ++ name ++ "'"
  | .unknownRegister task name =>
    "task " ++ Text.decimal task ++ " has no register '" ++ name ++ "'"
  | .word cause => "evaluation failed: " ++ cause.message

/-- The current value of a variable. -/
def value? (m : Machine) (name : String) : Option Value := m.memory.get? name

/-- The current value of a register. -/
def register? (m : Machine) (id : Int) (name : String) : Option Value :=
  (m.task? id).bind fun t => t.registers.get? name

/-- The current value of a variable as a word. -/
def word (m : Machine) (name : String) : Except ValueError Int :=
  match m.value? name with
  | some v => v.word.mapError .word
  | none => .error (.unknownVariable name)

/-- The current value of a register as a word. -/
def registerWord (m : Machine) (id : Int) (name : String) : Except ValueError Int :=
  match m.register? id name with
  | some v => v.word.mapError .word
  | none => .error (.unknownRegister id name)

end Machine

end Interleaving
