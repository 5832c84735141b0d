import Interleaving.Machine.Basic
import Interleaving.Proofs.Dictionary

/-!
# What validation guarantees

A valid program has a main thread, and each of its operations does an instruction
(`Interleaving.Operation.instruction?`) that the program **supports**
(`Interleaving.Program.Supports`): the variable that it touches is declared, and the thread that it
spawns or joins exists. So no operation is lost in the code of a thread
(`Interleaving.Program.codeOf_getElem?`), and a position in the code is one in the operations as
they were written.

Programs can also be written as instructions to begin with (`Interleaving.Program.ofInstructions`).
-/

namespace Interleaving

/-! ### Programs from instructions -/

/-- An operation without operands. -/
def OperationKind.bare (kind : OperationKind) : Operation :=
  { kind, shared := "", into := "", lock := "", thread := "", value := none, condition := none,
    message := "" }

/-- The operation that does an instruction. -/
def Instruction.operation : Instruction → Operation
  | .read shared into => { OperationKind.bare .read with shared, into }
  | .write shared value => { OperationKind.bare .write with shared, value := some value }
  | .fetchAdd shared into value =>
    { OperationKind.bare .fetchAdd with shared, into, value := some value }
  | .lock name => { OperationKind.bare .lock with lock := name }
  | .unlock name => { OperationKind.bare .unlock with lock := name }
  | .spawn thread => { OperationKind.bare .spawn with thread }
  | .join thread => { OperationKind.bare .join with thread }
  | .assert condition message =>
    { OperationKind.bare .assert with condition := some condition, message }
  | .assume condition => { OperationKind.bare .assume with condition := some condition }

/-- The operation of an instruction does this instruction. -/
theorem Instruction.instruction?_operation (i : Instruction) :
    i.operation.instruction? = some i := by
  cases i <;> rfl

/-- The code of a thread that is written as instructions. -/
theorem Machine.codeOf_operations (is : List Instruction) :
    Machine.codeOf (is.map Instruction.operation) = is := by
  rw [Machine.codeOf, List.filterMap_map]
  have hsome : (Operation.instruction? ∘ Instruction.operation) = some :=
    funext Instruction.instruction?_operation
  rw [hsome, List.filterMap_some]

namespace Program

/-- A program whose threads are written as instructions and whose variables all start as zero. -/
def ofInstructions (name : String) (shared : List String)
    (threads : List (String × List Instruction)) : Program :=
  { name, globals := .ofList (shared.map fun x => (x, Value.zero))
    threads := .ofList (threads.map fun t => (t.1, t.2.map Instruction.operation))
    settings := none }

/-! ### Valid programs -/

/-- What an instruction needs is there. -/
def Supports (p : Program) : Instruction → Prop
  | .read shared into => p.globals.has shared = true ∧ into ≠ ""
  | .write shared _ => p.globals.has shared = true
  | .fetchAdd shared _ _ => p.globals.has shared = true
  | .lock lock => lock ≠ ""
  | .unlock lock => lock ≠ ""
  | .spawn thread => p.threads.has thread = true ∧ thread ≠ mainThread
  | .join thread => p.threads.has thread = true
  | .assert _ _ => True
  | .assume _ => True

variable {p : Program} {thread : String} {ops : List Operation} {op : Operation}

/-- What is needed is there if that gives no fault. -/
theorem need_eq_nil {ok : Bool} {fault : Operation.Fault} : need ok fault = [] ↔ ok = true := by
  cases ok <;> simp [need]

theorem has_of_variableFaults (h : p.variableFaults op = []) : p.globals.has op.shared = true := by
  unfold variableFaults at h
  split at h
  · cases h
  · exact need_eq_nil.mp h

theorem has_of_threadFaults (h : p.threadFaults op = []) : p.threads.has op.thread = true := by
  unfold threadFaults at h
  split at h
  · cases h
  · exact need_eq_nil.mp h

/-- **An operation without faults does an instruction** that the program supports. -/
theorem exists_instruction (h : p.operandFaults op = []) :
    ∃ i, op.instruction? = some i ∧ p.Supports i := by
  cases hkind : op.kind
  all_goals
    rw [operandFaults, hkind] at h
    rw [Operation.instruction?, hkind]
  case read =>
    obtain ⟨hvar, hinto⟩ := List.append_eq_nil_iff.mp h
    exact ⟨_, rfl, has_of_variableFaults hvar, by simpa using need_eq_nil.mp hinto⟩
  case write =>
    obtain ⟨hvar, hvalue⟩ := List.append_eq_nil_iff.mp h
    obtain ⟨value, hv⟩ := Option.isSome_iff_exists.mp (need_eq_nil.mp hvalue)
    exact ⟨.write op.shared value, by rw [hv]; rfl, has_of_variableFaults hvar⟩
  case fetchAdd =>
    obtain ⟨hvar, hvalue⟩ := List.append_eq_nil_iff.mp h
    obtain ⟨value, hv⟩ := Option.isSome_iff_exists.mp (need_eq_nil.mp hvalue)
    exact ⟨.fetchAdd op.shared op.into value, by rw [hv]; rfl, has_of_variableFaults hvar⟩
  case lock => exact ⟨_, rfl, by simpa [Supports] using need_eq_nil.mp h⟩
  case unlock => exact ⟨_, rfl, by simpa [Supports] using need_eq_nil.mp h⟩
  case spawn =>
    obtain ⟨hthread, hmain⟩ := List.append_eq_nil_iff.mp h
    exact ⟨_, rfl, has_of_threadFaults hthread, by simpa using need_eq_nil.mp hmain⟩
  case join => exact ⟨_, rfl, has_of_threadFaults h⟩
  case assert =>
    obtain ⟨condition, hc⟩ := Option.isSome_iff_exists.mp (need_eq_nil.mp h)
    exact ⟨.assert condition op.message, by rw [hc]; rfl, trivial⟩
  case assume =>
    obtain ⟨condition, hc⟩ := Option.isSome_iff_exists.mp (need_eq_nil.mp h)
    exact ⟨.assume condition, by rw [hc]; rfl, trivial⟩
  case other => cases h

/-- The main thread of a valid program. -/
theorem has_mainThread (hv : p.isValid = true) : p.threads.has mainThread = true := by
  have h : p.faults = [] := List.isEmpty_iff.mp hv
  obtain ⟨hmain, -⟩ := List.append_eq_nil_iff.mp h
  cases hhas : p.threads.has mainThread with
  | true => rfl
  | false => simp [hhas] at hmain

/-- No operation of a valid program has a fault. -/
theorem operandFaults_eq_nil (hv : p.isValid = true) (hops : p.threads.get? thread = some ops)
    (hop : op ∈ ops) : p.operandFaults op = [] := by
  have h : p.faults = [] := List.isEmpty_iff.mp hv
  obtain ⟨-, hthreads⟩ := List.append_eq_nil_iff.mp h
  have hmem : (thread, ops) ∈ p.threads.entries := by
    obtain ⟨before, after, heq, -⟩ := List.lookup_eq_some_iff.mp hops
    rw [heq]
    exact List.mem_append_right before List.mem_cons_self
  have hthread : p.threadFaultsOf thread ops = [] := List.flatMap_eq_nil_iff.mp hthreads _ hmem
  obtain ⟨i, hi, hget⟩ := List.mem_iff_getElem.mp hop
  have hindexed : (op, i) ∈ ops.zipIdx := by
    rw [List.mem_zipIdx_iff_getElem?]
    exact List.getElem?_eq_some_iff.mpr ⟨hi, hget⟩
  have hfaults := List.flatMap_eq_nil_iff.mp hthread _ hindexed
  exact (List.append_eq_nil_iff.mp (List.map_eq_nil_iff.mp hfaults)).1

/-- The code of operations that all do something. -/
theorem codeOf_map_some (h : ∀ op ∈ ops, (op.instruction?).isSome = true) :
    (Machine.codeOf ops).map some = ops.map Operation.instruction? := by
  induction ops with
  | nil => rfl
  | cons op ops ih =>
    obtain ⟨i, hi⟩ := Option.isSome_iff_exists.mp (h op List.mem_cons_self)
    have hrest := ih fun op' hop' => h op' (List.mem_cons_of_mem op hop')
    rw [Machine.codeOf] at hrest ⊢
    rw [List.filterMap_cons, hi, List.map_cons, List.map_cons, hrest, hi]

theorem codeOf_map_some_of_valid (hv : p.isValid = true) (hops : p.threads.get? thread = some ops) :
    (Machine.codeOf ops).map some = ops.map Operation.instruction? := by
  refine codeOf_map_some fun op hop => ?_
  obtain ⟨i, hi, -⟩ := exists_instruction (operandFaults_eq_nil hv hops hop)
  rw [hi]
  rfl

/-- The code of a thread of a valid program has an instruction for every operation. -/
theorem codeOf_length (hv : p.isValid = true) (hops : p.threads.get? thread = some ops) :
    (Machine.codeOf ops).length = ops.length := by
  have h := congrArg List.length (codeOf_map_some_of_valid hv hops)
  simpa using h

/-- **The instruction at a position** is that of the operation there, and the program supports
it. -/
theorem codeOf_getElem? (hv : p.isValid = true) (hops : p.threads.get? thread = some ops)
    {position : Nat} {i : Instruction} (hi : (Machine.codeOf ops)[position]? = some i) :
    ∃ op, ops[position]? = some op ∧ op.instruction? = some i ∧ p.Supports i := by
  have h := congrArg (fun l => l[position]?) (codeOf_map_some_of_valid hv hops)
  simp only [List.getElem?_map, hi, Option.map_some] at h
  obtain ⟨op, hop, hinstruction⟩ := Option.map_eq_some_iff.mp h.symm
  obtain ⟨i', hi', hsupports⟩ :=
    exists_instruction (operandFaults_eq_nil hv hops (List.mem_of_getElem? hop))
  rw [hinstruction] at hi'
  cases hi'
  exact ⟨op, hop, hinstruction, hsupports⟩

end Program

end Interleaving
