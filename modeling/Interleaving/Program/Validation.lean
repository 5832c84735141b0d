import Interleaving.Program.Basic

/-!
# Validation

What must hold of a program before it can run: it has a main thread, every operation has the
operands that its kind needs, threads that are spawned or joined exist, and expressions read only
registers that their thread loads. All faults are reported together, thread by thread in the order
of the names.
-/

namespace Interleaving

/-- What is wrong with an operation. -/
inductive Operation.Fault where
  | missing (operand : String)
  | undeclaredVariable (name : String)
  | unknownThread (name : String)
  | spawnsMain
  | unknownKind (name : String)
  | unknownRegister (name : String)
deriving DecidableEq

/-- The message about an operation. -/
def Operation.Fault.message : Operation.Fault → String
  | .missing operand => "missing '" ++ operand ++ "'"
  | .undeclaredVariable name => "undeclared variable '" ++ name ++ "'"
  | .unknownThread name => "unknown thread '" ++ name ++ "'"
  | .spawnsMain => "the main thread cannot be spawned"
  | .unknownKind name => "unknown operation kind '" ++ name ++ "'"
  | .unknownRegister name => "expression reads unknown register '" ++ name ++ "'"

/-- What is wrong with a program. -/
inductive Program.Fault where
  | noMain (program : String)
  | operation (thread : String) (index : Nat) (kind : OperationKind) (fault : Operation.Fault)
deriving DecidableEq

/-- The message about a program. -/
def Program.Fault.message : Program.Fault → String
  | .noMain program => "program '" ++ program ++ "': no '" ++ Program.mainThread ++ "' thread"
  | .operation thread index kind fault =>
    "thread '" ++ thread ++ "', op " ++ Text.decimal index ++ " (" ++ kind.name ++ "): " ++
      fault.message

namespace Program

/-- A fault unless a condition holds. -/
def need (ok : Bool) (fault : Operation.Fault) : List Operation.Fault := if ok then [] else [fault]

/-- The faults of an operation's variable. -/
def variableFaults (p : Program) (op : Operation) : List Operation.Fault :=
  if op.shared = "" then [.missing "var"]
  else need (p.globals.has op.shared) (.undeclaredVariable op.shared)

/-- The faults of an operation's thread. -/
def threadFaults (p : Program) (op : Operation) : List Operation.Fault :=
  if op.thread = "" then [.missing "thread"]
  else need (p.threads.has op.thread) (.unknownThread op.thread)

/-- The faults of the operands that the kind of an operation needs. -/
def operandFaults (p : Program) (op : Operation) : List Operation.Fault :=
  match op.kind with
  | .read => p.variableFaults op ++ need (op.into ≠ "") (.missing "into")
  | .write => p.variableFaults op ++ need op.value.isSome (.missing "value")
  | .fetchAdd => p.variableFaults op ++ need op.value.isSome (.missing "value")
  | .lock => need (op.lock ≠ "") (.missing "lock")
  | .unlock => need (op.lock ≠ "") (.missing "lock")
  | .spawn => p.threadFaults op ++ need (op.thread ≠ mainThread) .spawnsMain
  | .join => p.threadFaults op
  | .assert => need op.condition.isSome (.missing "condition")
  | .assume => need op.condition.isSome (.missing "condition")
  | .other name => [.unknownKind name]

/-- The faults of the expressions of an operation: registers that its thread does not have. -/
def readFaults (registers : List String) (op : Operation) : List Operation.Fault :=
  let reads (e : Option Expression) : List String := (e.map (·.reads)).getD []
  ((reads op.value ++ reads op.condition).filter fun r => !registers.contains r).map
    .unknownRegister

/-- The faults of an operation. -/
def operationFaults (p : Program) (registers : List String) (op : Operation) :
    List Operation.Fault :=
  p.operandFaults op ++ readFaults registers op

/-- The faults of a thread. -/
def threadFaultsOf (p : Program) (name : String) (ops : List Operation) : List Fault :=
  ops.zipIdx.flatMap fun (op, i) =>
    (p.operationFaults (registersOf ops) op).map (.operation name i op.kind)

/-- The faults of a program. -/
def faults (p : Program) : List Fault :=
  (if p.threads.has mainThread then [] else [.noMain p.name]) ++
    p.threads.entries.flatMap fun (name, ops) => p.threadFaultsOf name ops

/-- Whether a program can run. -/
def isValid (p : Program) : Bool := p.faults.isEmpty

/-- The message about a program that cannot run. -/
def faultsMessage (fs : List Fault) : String :=
  "program validation failed:\n- " ++ "\n- ".intercalate (fs.map (·.message))

end Program

end Interleaving
