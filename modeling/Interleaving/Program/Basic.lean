import Interleaving.Program.Expression
import Interleaving.Sorting

/-!
# Programs

A program declares shared variables and named threads. A thread is a list of operations, and a
register of a thread is any name that one of its operations loads into.

Operations are kept **as they were written**: a kind and operands that may be missing or without use
for the kind. `Interleaving.Operation.instruction?` is what an operation does once its operands are
there.
-/

namespace Interleaving

/-- What an operation is for. -/
inductive OperationKind where
  | read
  | write
  | fetchAdd
  | lock
  | unlock
  | spawn
  | join
  | assert
  | assume
  /-- A name that stands for no operation. -/
  | other (name : String)
deriving DecidableEq

namespace OperationKind

/-- The name of a kind. -/
def name : OperationKind → String
  | .read => "read"
  | .write => "write"
  | .fetchAdd => "fetch_add"
  | .lock => "lock"
  | .unlock => "unlock"
  | .spawn => "spawn"
  | .join => "join"
  | .assert => "assert"
  | .assume => "assume"
  | .other name => name

/-- The kinds that stand for an operation. -/
def known : List OperationKind :=
  [.read, .write, .fetchAdd, .lock, .unlock, .spawn, .join, .assert, .assume]

/-- The kind with a name. -/
def ofName (s : String) : OperationKind := (known.find? fun k => k.name == s).getD (.other s)

/-- Whether a step of this kind can be seen by other tasks. What cannot is done in the step of the
next operation that can. -/
def isVisible (k : OperationKind) : Bool := k ≠ .assert

end OperationKind

/-- An operation as it was written. An operand that is missing is the empty text or no
expression. -/
structure Operation where
  kind : OperationKind
  /-- The shared variable. -/
  shared : String
  into : String
  lock : String
  thread : String
  value : Option Expression
  condition : Option Expression
  message : String

/-- What an operation does. -/
inductive Instruction where
  | read (shared into : String)
  | write (shared : String) (value : Expression)
  /-- Adds to a variable; the old value goes into a register unless its name is empty. -/
  | fetchAdd (shared into : String) (value : Expression)
  | lock (name : String)
  | unlock (name : String)
  | spawn (thread : String)
  | join (thread : String)
  | assert (condition : Expression) (message : String)
  | assume (condition : Expression)

/-- What an operation does, if its kind is known and its expressions are there. -/
def Operation.instruction? (op : Operation) : Option Instruction :=
  match op.kind with
  | .read => some (.read op.shared op.into)
  | .write => op.value.map (.write op.shared)
  | .fetchAdd => op.value.map (.fetchAdd op.shared op.into)
  | .lock => some (.lock op.lock)
  | .unlock => some (.unlock op.lock)
  | .spawn => some (.spawn op.thread)
  | .join => some (.join op.thread)
  | .assert => op.condition.map fun c => .assert c op.message
  | .assume => op.condition.map .assume
  | .other _ => none

/-- The registers of a thread, in increasing order. -/
def registersOf (ops : List Operation) : List String :=
  Sorting.sort (fun a b => decide (a ≤ b)) ((ops.map (·.into)).filter (· ≠ "")).eraseDups

/-- The wishes for a search that a program file may hold. -/
structure Settings where
  maxIterations : Option Int
  policy : Option String
  seed : Option Int
  stopOnBug : Option Bool

/-- A program: the initial values of its variables and the operations of its threads. -/
structure Program where
  name : String
  globals : Dictionary Value
  threads : Dictionary (List Operation)
  settings : Option Settings

namespace Program

/-- A program with nothing in it. -/
def empty : Program := ⟨"", .empty, .empty, none⟩

/-- The thread that a run starts with. -/
def mainThread : String := "main"

end Program

end Interleaving
