import Interleaving.Machine.Basic

/-!
# Steps of the machine

A step of a task does at most one operation that others can see. Assertions before it are done in
the same step, and one that fails ends the step. A task without operations left finishes in a step
of its own. Joining takes two steps: the first one is not observed, and the second one is possible
when the other task has finished. An attempt at a lock that is taken is observed as an acquisition
and leaves the task waiting; its next step takes the lock.

A step that fails because an expression has no value keeps the assertions that were passed before it
(`Interleaving.Machine.step` gives the machine after a failure, too). A fetch-and-add onto an
infinity of the other sign is not caught as such a failure: the machine **breaks down**
(`Interleaving.Machine.EvaluationFault.breakdown`).
-/

namespace Interleaving

namespace Machine

/-- Why an expression of a task cannot be used. -/
inductive EvaluationFault where
  | expression (cause : Expression.Fault)
  | noValue
  | number (cause : Value.Mismatch)
  | condition (cause : Value.Mismatch)
  | fetchAdd (shape : Shape) (shared : String)
  /-- The sum of a fetch-and-add has no value, which nothing catches. -/
  | breakdown (cause : Number.Undefined)
deriving DecidableEq

/-- What a machine says that breaks down. -/
def breakdownMessage : String := "addition of infinities with opposite signs"

/-- The message about an expression that cannot be used. -/
def EvaluationFault.message (say : Wording) : EvaluationFault → String
  | .expression cause => say (.diagnostic cause.text)
  | .noValue => "expression has no value"
  | .number cause => cause.message
  | .condition cause => "condition: " ++ cause.message
  | .fetchAdd shape shared => "fetch_add on " ++ shape.name ++ " variable '" ++ shared ++ "'"
  | .breakdown _ => breakdownMessage

/-- Why a step fails. -/
inductive Error where
  | notActive (task : Int)
  | evaluation (task : Int) (thread : String) (fault : EvaluationFault)
deriving DecidableEq

/-- A task in messages. -/
def describeTask (task : Int) (thread : String) : String :=
  "task " ++ Text.decimal task ++ " (" ++ thread ++ ")"

/-- The message about a step that fails. -/
def Error.message (say : Wording) : Error → String
  | .notActive task => "task is not active: task " ++ Text.decimal task
  | .evaluation _ _ (.breakdown _) => breakdownMessage
  | .evaluation task thread fault =>
    "evaluation failed: " ++ describeTask task thread ++ ": " ++ fault.message say

/-! ### Evaluation -/

/-- The value of an expression for a task. -/
def TaskFrame.eval (t : TaskFrame) (e : Expression) : Except EvaluationFault Value :=
  match e.eval t.registers.get? with
  | .error fault => .error (.expression fault)
  | .ok .null => .error .noValue
  | .ok v => .ok v

/-- The value of an expression for a task as a number. -/
def TaskFrame.evalNumber (t : TaskFrame) (e : Expression) : Except EvaluationFault Number := do
  match (← t.eval e).toNumber? with
  | .ok (some n) => return n
  | .ok none => throw .noValue
  | .error cause => throw (.number cause)

/-- The value of an expression for a task as a truth value. -/
def TaskFrame.evalBool (t : TaskFrame) (e : Expression) : Except EvaluationFault Bool := do
  match (← t.eval e).toBool? with
  | .ok (some b) => return b
  | .ok none => throw .noValue
  | .error cause => throw (.condition cause)

/-! ### Assertions -/

/-- Where a task stands after the assertions in front of it. -/
inductive Assertions where
  /-- All of them hold. -/
  | passed (position : Nat)
  | failed (position : Nat) (message : String)
  | fault (position : Nat) (cause : EvaluationFault)

/-- The message about an assertion that does not hold. -/
def failureMessage (message thread : String) (position : Nat) : String :=
  if message ≠ "" then message
  else "assertion " ++ Text.decimal position ++ " of thread '" ++ thread ++ "' failed"

/-- Does the assertions at the start of the code that is left. -/
def TaskFrame.assertionsFrom (t : TaskFrame) : List Instruction → Nat → Assertions
  | .assert condition message :: rest, position =>
    match t.evalBool condition with
    | .error cause => .fault position cause
    | .ok true => t.assertionsFrom rest (position + 1)
    | .ok false => .failed position (failureMessage message t.thread position)
  | _, position => .passed position

/-- Does the assertions in front of a task. -/
def TaskFrame.assertions (t : TaskFrame) : Assertions :=
  t.assertionsFrom (t.code.drop t.position) t.position

/-! ### Steps -/

/-- The task behind the instruction it stands at. -/
def TaskFrame.advance (t : TaskFrame) : TaskFrame := { t with position := t.position + 1 }

/-- What a step gives: observations or an error, and the machine afterwards. -/
abbrev StepResult := Except Error (List Observation) × Machine

/-- A step with one observation. -/
def observe (m : Machine) (o : Observation) : StepResult := (.ok [o], m)

/-- A step that shows an error of the program. -/
def fail (m : Machine) (id : Int) (t : TaskFrame) (message : String) : StepResult :=
  (m.setTask id { t with state := .failed }).observe (.assertFailure id message)

/-- A step on a variable or lock, seen under its location. -/
def access (m : Machine) (id : Int) (kind : Observation.Kind) (p : Place) : StepResult :=
  let (loc, m) := m.touch p
  m.observe (.memory id kind loc)

/-- Executes an instruction that others can see. -/
def execute (m : Machine) (id : Int) (t : TaskFrame) (i : Instruction) : StepResult :=
  let stop (fault : EvaluationFault) : StepResult :=
    (.error (.evaluation id t.thread fault), m)
  match i with
  | .read shared into =>
    let v := (m.memory.get? shared).getD .null
    let t := { t with registers := t.registers.set into v }
    (m.setTask id t.advance).access id .read (.shared shared)
  | .write shared value =>
    match t.eval value with
    | .error fault => stop fault
    | .ok v =>
      let m := m.setTask id t.advance
      { m with memory := m.memory.set shared v }.access id .write (.shared shared)
  | .fetchAdd shared into value =>
    match t.evalNumber value with
    | .error fault => stop fault
    | .ok delta =>
      let old := (m.memory.get? shared).getD .null
      match old with
      | .number n =>
        match n.add delta with
        | .error cause => stop (.breakdown cause)
        | .ok sum =>
          let t := if into = "" then t else { t with registers := t.registers.set into old }
          let m := m.setTask id t.advance
          { m with memory := m.memory.set shared (.number sum) }.access id .readModifyWrite
            (.shared shared)
      | _ => stop (.fetchAdd old.shape shared)
  | .lock name =>
    if m.holders.has name then
      (m.setTask id { t with state := .waiting name }).access id .lockAcquire (.lock name)
    else
      let m := m.setTask id t.advance
      { m with holders := m.holders.set name id }.access id .lockAcquire (.lock name)
  | .unlock name =>
    if m.holders.get? name = some id then
      let m := m.setTask id t.advance
      { m with holders := m.holders.erase name }.access id .lockRelease (.lock name)
    else
      m.fail id t (describeTask id t.thread ++ " unlocks '" ++ name ++ "' which it does not hold")
  | .spawn thread =>
    let child : Int := m.tasks.length + 1
    let t := { t with children := t.children.set thread child }
    ((m.setTask id t.advance).spawn thread).observe (.threadStart child id)
  | .join thread =>
    match t.children.get? thread with
    | some target => (.ok [], m.setTask id { t with state := .joining target })
    | none =>
      m.fail id t (describeTask id t.thread ++ " joins '" ++ thread ++ "' which it never spawned")
  | .assume condition =>
    match t.evalBool condition with
    | .error fault => stop fault
    | .ok holds =>
      let t := if holds then t.advance else { t with state := .parked }
      (m.setTask id t).observe (.assume id holds)
  | .assert _ _ => (.ok [], m)

/-- The step of a task that is ready. -/
def stepReady (m : Machine) (id : Int) (t : TaskFrame) : StepResult :=
  match t.assertions with
  | .fault position fault =>
    (.error (.evaluation id t.thread fault), m.setTask id { t with position })
  | .failed position message => m.fail id { t with position } message
  | .passed position =>
    let t := { t with position }
    let m := m.setTask id t
    match t.code[position]? with
    | none => (m.setTask id { t with state := .finished }).observe (.threadFinish id)
    | some i => m.execute id t i

/-- One atomic step of a task: what was observed or why it failed, and the machine afterwards. -/
def step (m : Machine) (id : Int) : StepResult :=
  match m.task? id with
  | none => (.error (.notActive id), m)
  | some t =>
    if !m.canStep t then (.error (.notActive id), m)
    else
      match t.state with
      | .waiting lock =>
        let m := m.setTask id { t with state := .ready }.advance
        { m with holders := m.holders.set lock id }.access id .lockAcquired (.lock lock)
      | .joining target =>
        (m.setTask id { t with state := .ready }.advance).observe (.threadJoin id target)
      | _ => m.stepReady id t

end Machine

end Interleaving
