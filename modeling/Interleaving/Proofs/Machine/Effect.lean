import Interleaving.Proofs.Machine.Step

/-!
# The effect of a step

A step of a task changes the task itself, at most one variable or lock, and adds at most one task.
What it does is its **effect** (`Interleaving.Machine.Effect`), in which a variable or lock stands
for itself and not for its number in this run. A step finds out what its effect is and brings it
about (`Interleaving.Machine.step_eq_perform`).

An effect depends on the task and on little else: on the variable or lock that the step is about,
and on the number of tasks if the step spawns one (`Interleaving.Machine.effect_congr`).
-/

namespace Interleaving

namespace Machine

variable {m m' : Machine} {id : Int} {t : TaskFrame}

/-! ### Effects -/

/-- What a step reports, with a variable or lock in place of its number. -/
inductive Report where
  | fault (e : Error)
  | silent
  | shows (o : Observation)
  | accesses (kind : Observation.Kind) (p : Place)

/-- What a step does. -/
structure Effect where
  report : Report
  /-- The task after the step. -/
  frame : TaskFrame
  spawned : Option String := none
  /-- The variable that gets a value. -/
  stored : Option (String × Value) := none
  /-- The lock that is taken by a task, or given back. -/
  turned : Option (String × Option Int) := none

namespace Effect

/-- The variables after a step. -/
def memory (e : Effect) (d : Dictionary Value) : Dictionary Value :=
  match e.stored with
  | none => d
  | some (name, v) => d.set name v

/-- The locks after a step. -/
def holders (e : Effect) (d : Dictionary Int) : Dictionary Int :=
  match e.turned with
  | none => d
  | some (lock, some holder) => d.set lock holder
  | some (lock, none) => d.erase lock

/-- The machine after a step, before the place that the step is about has a number. -/
def apply (e : Effect) (id : Int) (m : Machine) : Machine :=
  { m with
    tasks := m.tasks.set (id - 1).toNat e.frame ++
      (e.spawned.map fun thread =>
        TaskFrame.start thread ((m.program.threads.get? thread).getD [])).toList
    memory := e.memory m.memory
    holders := e.holders m.holders }

/-- Brings an effect about. -/
def perform (e : Effect) (id : Int) (m : Machine) : StepResult :=
  match e.report with
  | .fault error => (.error error, e.apply id m)
  | .silent => (.ok [], e.apply id m)
  | .shows o => (.ok [o], e.apply id m)
  | .accesses kind p => (e.apply id m).access id kind p

end Effect

/-- The effect of a step that shows an error of the program. -/
def failing (id : Int) (t : TaskFrame) (message : String) : Effect :=
  { report := .shows (.assertFailure id message), frame := { t with state := .failed } }

/-- The effect of an instruction, with the assertions in front of it passed. -/
def effectOf (m : Machine) (id : Int) (t : TaskFrame) (i : Instruction) : Effect :=
  let stop (fault : EvaluationFault) : Effect :=
    { report := .fault (.evaluation id t.thread fault), frame := t }
  match i with
  | .read shared into =>
    { report := .accesses .read (.shared shared)
      frame :=
        { t with registers := t.registers.set into ((m.memory.get? shared).getD .null) }.advance }
  | .write shared value =>
    match t.eval value with
    | .error fault => stop fault
    | .ok v =>
      { report := .accesses .write (.shared shared), frame := t.advance,
        stored := some (shared, v) }
  | .fetchAdd shared into value =>
    match t.evalNumber value with
    | .error fault => stop fault
    | .ok delta =>
      let old := (m.memory.get? shared).getD .null
      match old with
      | .number n =>
        match n.add delta with
        | .error cause => stop (.breakdown cause)
        | .ok sum =>
          { report := .accesses .readModifyWrite (.shared shared)
            frame :=
              (if into = "" then t else { t with registers := t.registers.set into old }).advance
            stored := some (shared, .number sum) }
      | _ => stop (.fetchAdd old.shape shared)
  | .lock name =>
    if m.holders.has name then
      { report := .accesses .lockAcquire (.lock name), frame := { t with state := .waiting name } }
    else
      { report := .accesses .lockAcquire (.lock name), frame := t.advance,
        turned := some (name, some id) }
  | .unlock name =>
    if m.holders.get? name = some id then
      { report := .accesses .lockRelease (.lock name), frame := t.advance,
        turned := some (name, none) }
    else failing id t (describeTask id t.thread ++ " unlocks '" ++ name ++
      "' which it does not hold")
  | .spawn thread =>
    let child : Int := m.tasks.length + 1
    { report := .shows (.threadStart child id)
      frame := { t with children := t.children.set thread child }.advance
      spawned := some thread }
  | .join thread =>
    match t.children.get? thread with
    | some target => { report := .silent, frame := { t with state := .joining target } }
    | none =>
      failing id t (describeTask id t.thread ++ " joins '" ++ thread ++ "' which it never spawned")
  | .assume condition =>
    match t.evalBool condition with
    | .error fault => stop fault
    | .ok holds =>
      { report := .shows (.assume id holds),
        frame := if holds then t.advance else { t with state := .parked } }
  | .assert _ _ => { report := .silent, frame := t }

/-- The effect of the next step of a task that waits for nothing. -/
def effectReady (m : Machine) (id : Int) (t : TaskFrame) : Effect :=
  match t.assertions with
  | .fault position fault =>
    { report := .fault (.evaluation id t.thread fault), frame := { t with position } }
  | .failed position message => failing id { t with position } message
  | .passed position =>
    match t.code[position]? with
    | none =>
      { report := .shows (.threadFinish id), frame := { t with position, state := .finished } }
    | some i => m.effectOf id { t with position } i

/-- The effect of the next step of a task that can take one. -/
def effect (m : Machine) (id : Int) (t : TaskFrame) : Effect :=
  match t.state with
  | .waiting lock =>
    { report := .accesses .lockAcquired (.lock lock), frame := { t with state := .ready }.advance
      turned := some (lock, some id) }
  | .joining target =>
    { report := .shows (.threadJoin id target), frame := { t with state := .ready }.advance }
  | _ => m.effectReady id t

/-! ### A step brings its effect about -/

/-- A machine in which nothing but a task has changed. -/
theorem apply_eq_setTask {e : Effect} (hspawned : e.spawned = none) (hstored : e.stored = none)
    (hturned : e.turned = none) : e.apply id m = m.setTask id e.frame := by
  simp [Effect.apply, setTask, Effect.memory, Effect.holders, hspawned, hstored, hturned]

/-- A machine in which a task has changed and a variable has a value. -/
theorem apply_eq_store {e : Effect} {name : String} {v : Value} (hspawned : e.spawned = none)
    (hstored : e.stored = some (name, v)) (hturned : e.turned = none) :
    e.apply id m = { m.setTask id e.frame with memory := m.memory.set name v } := by
  simp [Effect.apply, setTask, Effect.memory, Effect.holders, hspawned, hstored, hturned]

/-- A machine in which a task has changed and a lock is taken. -/
theorem apply_eq_take {e : Effect} {lock : String} {holder : Int} (hspawned : e.spawned = none)
    (hstored : e.stored = none) (hturned : e.turned = some (lock, some holder)) :
    e.apply id m = { m.setTask id e.frame with holders := m.holders.set lock holder } := by
  simp [Effect.apply, setTask, Effect.memory, Effect.holders, hspawned, hstored, hturned]

/-- A machine in which a task has changed and a lock is given back. -/
theorem apply_eq_release {e : Effect} {lock : String} (hspawned : e.spawned = none)
    (hstored : e.stored = none) (hturned : e.turned = some (lock, none)) :
    e.apply id m = { m.setTask id e.frame with holders := m.holders.erase lock } := by
  simp [Effect.apply, setTask, Effect.memory, Effect.holders, hspawned, hstored, hturned]

/-- Instructions bring their effects about. -/
theorem execute_eq_perform (m : Machine) (id : Int) (t : TaskFrame) (i : Instruction) :
    (m.setTask id t).execute id t i = (m.effectOf id t i).perform id m := by
  have hset : ∀ t' : TaskFrame, (m.setTask id t).setTask id t' = m.setTask id t' :=
    setTask_setTask m id t
  cases i with
  | read shared into =>
    simp only [execute, effectOf, Effect.perform]
    rw [apply_eq_setTask rfl rfl rfl, hset, setTask_memory]
  | write shared value =>
    cases hv : t.eval value with
    | error fault =>
      simp only [execute, effectOf, hv]
      rw [Effect.perform, apply_eq_setTask rfl rfl rfl]
    | ok v =>
      simp only [execute, effectOf, hv]
      rw [Effect.perform, apply_eq_store rfl rfl rfl, hset, setTask_memory]
  | fetchAdd shared into value =>
    cases hv : t.evalNumber value with
    | error fault =>
      simp only [execute, effectOf, hv]
      rw [Effect.perform, apply_eq_setTask rfl rfl rfl]
    | ok delta =>
      simp only [execute, effectOf, setTask_memory, hv]
      rcases (m.memory.get? shared).getD .null with n | s | b | items | members | _
      · cases hsum : n.add delta with
        | error cause =>
          simp only [hsum]
          rw [Effect.perform, apply_eq_setTask rfl rfl rfl]
        | ok sum =>
          simp only [hsum, hset]
          rw [Effect.perform, apply_eq_store rfl rfl rfl]
      all_goals
        dsimp only
        rw [Effect.perform, apply_eq_setTask rfl rfl rfl]
  | lock name =>
    cases hheld : m.holders.has name with
    | true =>
      simp only [execute, effectOf, setTask_holders, hheld, if_true]
      rw [Effect.perform, apply_eq_setTask rfl rfl rfl, hset]
    | false =>
      simp only [execute, effectOf, setTask_holders, hheld, Bool.false_eq_true, if_false]
      rw [Effect.perform, apply_eq_take rfl rfl rfl, hset]
  | unlock name =>
    by_cases hheld : m.holders.get? name = some id
    · simp only [execute, effectOf, setTask_holders, hheld, if_true]
      rw [Effect.perform, apply_eq_release rfl rfl rfl, hset]
    · simp only [execute, effectOf, setTask_holders, hheld, if_false]
      rw [fail, hset, failing, Effect.perform, apply_eq_setTask rfl rfl rfl]
      rfl
  | spawn thread =>
    simp only [execute, effectOf, setTask_length, hset]
    rfl
  | join thread =>
    cases hchild : t.children.get? thread with
    | some target =>
      simp only [execute, effectOf, hchild]
      rw [Effect.perform, apply_eq_setTask rfl rfl rfl, hset]
    | none =>
      simp only [execute, effectOf, hchild]
      rw [fail, hset, failing, Effect.perform, apply_eq_setTask rfl rfl rfl]
      rfl
  | assume condition =>
    cases hv : t.evalBool condition with
    | error fault =>
      simp only [execute, effectOf, hv]
      rw [Effect.perform, apply_eq_setTask rfl rfl rfl]
    | ok holds =>
      simp only [execute, effectOf, hv]
      rw [Effect.perform, apply_eq_setTask rfl rfl rfl, hset]
      rfl
  | assert condition message =>
    simp only [execute, effectOf]
    rw [Effect.perform, apply_eq_setTask rfl rfl rfl]

theorem stepReady_eq_perform (m : Machine) (id : Int) (t : TaskFrame) :
    m.stepReady id t = (m.effectReady id t).perform id m := by
  unfold stepReady effectReady
  cases t.assertions with
  | fault position fault => rw [Effect.perform, apply_eq_setTask rfl rfl rfl]
  | failed position message =>
    dsimp only
    rw [fail, failing, Effect.perform, apply_eq_setTask rfl rfl rfl]
    rfl
  | passed position =>
    dsimp only
    cases t.code[position]? with
    | none =>
      dsimp only
      rw [setTask_setTask, Effect.perform, apply_eq_setTask rfl rfl rfl]
      rfl
    | some i => exact execute_eq_perform m id _ i

/-- **A step brings its effect about.** -/
theorem step_eq_perform (ht : m.task? id = some t) (hstep : m.canStep t = true) :
    m.step id = (m.effect id t).perform id m := by
  unfold step effect
  rw [ht]
  simp only [hstep, Bool.not_true, Bool.false_eq_true, if_false]
  cases t.state with
  | waiting lock =>
    dsimp only
    rw [Effect.perform, apply_eq_take rfl rfl rfl]
    rfl
  | joining target =>
    dsimp only
    rw [Effect.perform, apply_eq_setTask rfl rfl rfl]
    rfl
  | _ => exact stepReady_eq_perform m id t

/-- A task that cannot step leaves the machine as it is. -/
theorem step_of_not_isActive (h : m.isActive id = false) :
    m.step id = (.error (.notActive id), m) := by
  unfold isActive at h
  unfold step
  split
  · rfl
  · rename_i t ht
    rw [ht] at h
    rw [if_pos (by simpa using h)]

/-- An active task has a frame and can step. -/
theorem exists_task_of_isActive (h : m.isActive id = true) :
    ∃ t, m.task? id = some t ∧ m.canStep t = true := by
  unfold isActive at h
  split at h
  · exact ⟨_, ‹_›, h⟩
  · cases h

/-! ### What a step is about -/

/-- The instruction that the next step of a task carries out, if it does not end before. -/
def TaskFrame.next? (t : TaskFrame) : Option Instruction :=
  match t.state, t.assertions with
  | .waiting _, _ => none
  | .joining _, _ => none
  | _, .passed position => t.code[position]?
  | _, _ => none

/-- The next instruction is one of the code. -/
theorem exists_position_of_next {t : TaskFrame} {i : Instruction} (h : t.next? = some i) :
    ∃ position : Nat, t.code[position]? = some i := by
  unfold TaskFrame.next? at h
  split at h
  · cases h
  · cases h
  · exact ⟨_, h⟩
  · cases h

/-- Whether the next step of a task spawns another one. -/
def TaskFrame.spawns (t : TaskFrame) : Bool :=
  match t.next? with
  | some (.spawn _) => true
  | _ => false

/-- The lock that an instruction is about. -/
def lockOf : Instruction → Option String
  | .lock lock => some lock
  | .unlock lock => some lock
  | _ => none

/-- The lock that the next step of a task is about. -/
def TaskFrame.lock? (t : TaskFrame) : Option String :=
  match t.state with
  | .waiting lock => some lock
  | _ => t.next?.bind lockOf

/-- Whether the next step of a task writes a variable. -/
def TaskFrame.writes (t : TaskFrame) : Bool :=
  match t.next? with
  | some (.write _ _) => true
  | some (.fetchAdd _ _ _) => true
  | _ => false

/-- The variable that the next step of a task reads or writes. A step without a value to write
touches none. -/
def TaskFrame.cell? (t : TaskFrame) : Option String :=
  match t.next? with
  | some (.read shared _) => some shared
  | some (.write shared value) => if (t.eval value).isOk then some shared else none
  | some (.fetchAdd shared _ value) => if (t.evalNumber value).isOk then some shared else none
  | _ => none

/-- An effect on the task alone: on no variable, on no lock and on no other task. -/
structure Effect.IsLocal (e : Effect) : Prop where
  spawned : e.spawned = none
  stored : e.stored = none
  turned : e.turned = none

/-- A step takes a lock that the task has waited for, or has an effect on the task alone that does
not depend on anything else, or carries out an instruction. -/
theorem effect_cases (t : TaskFrame) :
    (∃ lock, t.state = .waiting lock) ∨
      (∀ (m m' : Machine) (id : Int), m'.effect id t = m.effect id t ∧ (m.effect id t).IsLocal) ∨
      ∃ i position, t.next? = some i ∧ (∀ lock, t.state ≠ .waiting lock) ∧
        ∀ (m : Machine) (id : Int), m.effect id t = m.effectOf id { t with position } i := by
  by_cases hw : ∃ lock, t.state = .waiting lock
  · exact .inl hw
  refine .inr ?_
  by_cases hj : ∃ target, t.state = .joining target
  · obtain ⟨target, hs⟩ := hj
    left
    intro m m' id
    rw [effect, effect, hs]
    exact ⟨rfl, rfl, rfl, rfl⟩
  have heffect : ∀ (m : Machine) (id : Int), m.effect id t = m.effectReady id t := by
    intro m id
    unfold effect
    cases hs : t.state <;> simp_all
  have hnext : t.next? =
      match t.assertions with | .passed position => t.code[position]? | _ => none := by
    unfold TaskFrame.next?
    cases hs : t.state <;> cases t.assertions <;> simp_all
  rw [hnext]
  simp only [heffect, effectReady]
  cases t.assertions with
  | fault position fault => exact .inl fun _ _ _ => ⟨rfl, rfl, rfl, rfl⟩
  | failed position message => exact .inl fun _ _ _ => ⟨rfl, rfl, rfl, rfl⟩
  | passed position =>
    cases hi : t.code[position]? with
    | none =>
      left
      intro m m' id
      simp only [hi]
      exact ⟨trivial, rfl, rfl, rfl⟩
    | some i =>
      refine .inr ⟨i, position, hi, fun lock hs => hw ⟨lock, hs⟩, fun _ _ => ?_⟩
      simp only [hi]

/-- A task that does not wait for a lock is about that of its instruction. -/
theorem lock?_of_next {i : Instruction} (hs : ∀ lock, t.state ≠ .waiting lock)
    (hi : t.next? = some i) : t.lock? = lockOf i := by
  rw [TaskFrame.lock?, hi]
  split
  · rename_i lock hstate
    exact absurd hstate (hs lock)
  · rfl

theorem effectOf_spawned (m : Machine) (id : Int) (t : TaskFrame) (i : Instruction) :
    (m.effectOf id t i).spawned = match i with | .spawn thread => some thread | _ => none := by
  cases i <;> simp only [effectOf] <;> (repeat' split) <;> rfl

theorem effectOf_turned {i : Instruction} {lock : String} {holder : Option Int}
    (h : (m.effectOf id t i).turned = some (lock, holder)) : i = .lock lock ∨ i = .unlock lock := by
  revert h
  cases i <;> simp only [effectOf] <;> (repeat' split) <;> simp +contextual [failing]

/-- Only a value that there is can be stored. -/
theorem effectOf_stored {i : Instruction} {name : String} {v : Value}
    (h : (m.effectOf id t i).stored = some (name, v)) :
    (∃ value, i = .write name value ∧ (t.eval value).isOk = true) ∨
      ∃ into value, i = .fetchAdd name into value ∧ (t.evalNumber value).isOk = true := by
  cases i with
  | write shared value =>
    simp only [effectOf] at h
    split at h
    · cases h
    · rename_i hv
      cases h
      exact .inl ⟨value, rfl, by rw [hv]; rfl⟩
  | fetchAdd shared into value =>
    simp only [effectOf] at h
    split at h
    · cases h
    · rename_i hv
      refine .inr ⟨into, value, ?_, by rw [hv]; rfl⟩
      revert h
      (repeat' split) <;> simp +contextual
  | _ =>
    revert h
    simp only [effectOf]
    (repeat' split) <;> simp [failing]

/-- An effect that spawns a task is that of an instruction that does. -/
theorem next?_of_spawned {thread : String} (h : (m.effect id t).spawned = some thread) :
    t.next? = some (.spawn thread) := by
  rcases effect_cases t with ⟨lock, hs⟩ | hlocal | ⟨i, position, hi, -, heffect⟩
  · rw [effect, hs] at h
    cases h
  · rw [(hlocal m m id).2.spawned] at h
    cases h
  · rw [heffect, effectOf_spawned] at h
    cases i <;> cases h
    exact hi

theorem spawns_of_spawned {thread : String} (h : (m.effect id t).spawned = some thread) :
    t.spawns = true := by
  rw [TaskFrame.spawns, next?_of_spawned h]

/-- An effect on a lock is that of a step about the lock. -/
theorem lock?_of_turned {lock : String} {holder : Option Int}
    (h : (m.effect id t).turned = some (lock, holder)) : t.lock? = some lock := by
  rcases effect_cases t with ⟨lock', hs⟩ | hlocal | ⟨i, position, hi, hs, heffect⟩
  · rw [effect, hs] at h
    cases h
    rw [TaskFrame.lock?, hs]
  · rw [(hlocal m m id).2.turned] at h
    cases h
  · rw [heffect] at h
    rw [lock?_of_next hs hi]
    rcases effectOf_turned h with rfl | rfl <;> rfl

/-- An effect on a variable is that of a step that writes it. -/
theorem cell?_of_stored {name : String} {v : Value}
    (h : (m.effect id t).stored = some (name, v)) : t.cell? = some name ∧ t.writes = true := by
  rcases effect_cases t with ⟨lock', hs⟩ | hlocal | ⟨i, position, hi, -, heffect⟩
  · rw [effect, hs] at h
    cases h
  · rw [(hlocal m m id).2.stored] at h
    cases h
  · rw [heffect] at h
    rw [TaskFrame.cell?, TaskFrame.writes, hi]
    rcases effectOf_stored h with ⟨value, rfl, hv⟩ | ⟨into, value, rfl, hv⟩
    · exact ⟨if_pos hv, rfl⟩
    · exact ⟨if_pos hv, rfl⟩

/-- **What an effect depends on**: the variable and the lock that the step is about, and the number
of tasks if it spawns one. -/
theorem effect_congr
    (hmemory : ∀ name, t.cell? = some name → m'.memory.get? name = m.memory.get? name)
    (hholders : ∀ lock, t.lock? = some lock → m'.holders.get? lock = m.holders.get? lock)
    (hcount : t.spawns = true → m'.tasks.length = m.tasks.length) :
    m'.effect id t = m.effect id t := by
  rcases effect_cases t with ⟨lock, hs⟩ | hlocal | ⟨i, position, hi, hs, heffect⟩
  · rw [effect, effect, hs]
  · exact (hlocal m m' id).1
  · rw [heffect, heffect]
    rw [TaskFrame.cell?, hi] at hmemory
    rw [lock?_of_next hs hi] at hholders
    rw [TaskFrame.spawns, hi] at hcount
    cases i with
    | read shared into => simp only [effectOf, hmemory shared rfl]
    | fetchAdd shared into value =>
      simp only [effectOf]
      split
      · rfl
      · rename_i hv
        have hv' : (t.evalNumber value).isOk = true := by
          rw [show t.evalNumber value = _ from hv]
          rfl
        rw [hmemory shared (if_pos hv')]
    | lock name =>
      have hhas : m'.holders.has name = m.holders.has name := by
        rw [Dictionary.has, Dictionary.has, hholders name rfl]
      simp only [effectOf, hhas]
    | unlock name => simp only [effectOf, hholders name rfl]
    | spawn thread => simp only [effectOf, hcount rfl]
    | _ => rfl

/-! ### What an effect does to a machine -/

/-- The machine after a step on a place, if there is one. -/
def touched (m : Machine) : Option Place → Machine
  | none => m
  | some p => (m.touch p).2

/-- The number of a place depends on the numbers given out so far and on nothing else. -/
theorem touch_fst_congr (hplaces : m'.places = m.places) (hlast : m'.lastLocation = m.lastLocation)
    (p : Place) : (m'.touch p).1 = (m.touch p).1 := by
  unfold touch location?
  rw [hplaces, hlast]
  split <;> rfl

/-- The place that a step is about. -/
def Report.place? : Report → Option Place
  | .accesses _ p => some p
  | _ => none

/-- What a step gives, with the numbers of places. -/
def Report.result (id : Int) (number : Place → Location) : Report → Except Error (List Observation)
  | .fault e => .error e
  | .silent => .ok []
  | .shows o => .ok [o]
  | .accesses kind p => .ok [.memory id kind (number p)]

theorem perform_fst (e : Effect) (id : Int) (m : Machine) :
    (e.perform id m).1 = e.report.result id fun p => (m.touch p).1 := by
  rw [Effect.perform]
  cases e.report with
  | accesses kind p =>
    -- the effect itself gives no numbers
    have hsame : ((e.apply id m).touch p).1 = (m.touch p).1 := by
      refine touch_fst_congr ?_ ?_ p <;> rfl
    rw [Report.result, ← hsame]
    rfl
  | _ => rfl

/-- What an effect does to a machine besides numbering the place that it is about. -/
theorem perform_snd (e : Effect) (id : Int) (m : Machine) :
    (e.perform id m).2 = (e.apply id m).touched e.report.place? := by
  rw [Effect.perform]
  cases e.report <;> rfl

@[simp] theorem touched_program (m : Machine) (p? : Option Place) :
    (m.touched p?).program = m.program := by
  cases p? <;> simp [touched]

@[simp] theorem touched_tasks (m : Machine) (p? : Option Place) :
    (m.touched p?).tasks = m.tasks := by
  cases p? <;> simp [touched]

@[simp] theorem touched_memory (m : Machine) (p? : Option Place) :
    (m.touched p?).memory = m.memory := by
  cases p? <;> simp [touched]

@[simp] theorem touched_holders (m : Machine) (p? : Option Place) :
    (m.touched p?).holders = m.holders := by
  cases p? <;> simp [touched]

/-- The numbers given out by an effect. -/
theorem touch_perform (e : Effect) (id : Int) (m : Machine) (p : Place) :
    ((e.perform id m).2.touch p).1 = ((m.touched e.report.place?).touch p).1 := by
  rw [perform_snd]
  cases e.report.place? with
  | none => refine touch_fst_congr ?_ ?_ p <;> rfl
  | some q =>
    refine touch_fst_congr ?_ ?_ p
    all_goals
      simp only [touched, touch, location?, Effect.apply]
      split <;> rfl

/-- The task that steps is as its effect says. -/
theorem task?_perform_self {e : Effect} (ht : m.task? id = some t) :
    (e.perform id m).2.task? id = some e.frame := by
  obtain ⟨hid, hget⟩ := task?_eq_some.mp ht
  refine task?_eq_some.mpr ⟨hid, ?_⟩
  have hlt : (id - 1).toNat < m.tasks.length := (List.getElem?_eq_some_iff.mp hget).1
  rw [perform_snd, touched_tasks, Effect.apply]
  dsimp only
  rw [List.getElem?_append_left (by simpa using hlt), List.getElem?_set_self hlt]

/-- Other tasks stay as they are. -/
theorem task?_perform_of_ne {e : Effect} {other : Int} (hid : 1 ≤ id) (hne : id ≠ other)
    (ht : m.task? other = some t) : (e.perform id m).2.task? other = some t := by
  obtain ⟨hother, hget⟩ := task?_eq_some.mp ht
  refine task?_eq_some.mpr ⟨hother, ?_⟩
  have hlt : (other - 1).toNat < m.tasks.length := (List.getElem?_eq_some_iff.mp hget).1
  rw [perform_snd, touched_tasks, Effect.apply]
  dsimp only
  rw [List.getElem?_append_left (by simpa using hlt), List.getElem?_set_ne (by omega), hget]

/-- A variable that nothing is stored in keeps its value. -/
theorem get?_memory_of_ne {e : Effect} {name : String}
    (h : ∀ v, e.stored ≠ some (name, v)) (d : Dictionary Value) :
    (e.memory d).get? name = d.get? name := by
  unfold Effect.memory
  split
  · rfl
  · rename_i name' v hstored
    refine Dictionary.get?_set_of_ne d (fun heq => h v ?_) v
    rw [hstored, heq]

/-- A variable has the value that is stored in it. -/
theorem get?_memory_of_eq {e : Effect} {name : String} {v : Value} (h : e.stored = some (name, v))
    (d : Dictionary Value) : (e.memory d).get? name = some v := by
  rw [Effect.memory, h]
  exact Dictionary.get?_set_self d name v

/-- A lock that is not turned keeps its holder. -/
theorem get?_holders_of_ne {e : Effect} {lock : String}
    (h : ∀ holder, e.turned ≠ some (lock, holder)) (d : Dictionary Int) :
    (e.holders d).get? lock = d.get? lock := by
  unfold Effect.holders
  split
  · rfl
  · rename_i lock' holder hturned
    refine Dictionary.get?_set_of_ne d (fun heq => h (some holder) ?_) holder
    rw [hturned, heq]
  · rename_i lock' hturned
    refine Dictionary.get?_erase_of_ne d (fun heq => h none ?_)
    rw [hturned, heq]

/-- A lock has the holder that it is turned to. -/
theorem get?_holders_of_eq {e : Effect} {lock : String} {holder : Option Int}
    (h : e.turned = some (lock, holder)) (d : Dictionary Int) :
    (e.holders d).get? lock = holder := by
  rw [Effect.holders, h]
  cases holder with
  | none => exact Dictionary.get?_erase_self d lock
  | some id => exact Dictionary.get?_set_self d lock id

end Machine

end Interleaving
