import Interleaving.Proofs.Dictionary
import Interleaving.Proofs.Machine.Schedule

/-!
# What a step can do

`Interleaving.Machine.Takes` lists the steps of a machine that come to pass, one rule for each way,
and `Interleaving.Machine.takes_of_step` says that there are no others. From the rules follows what
every step keeps: the program, and of every task the thread and the code
(`Interleaving.Machine.Takes.tasks`).

`Interleaving.Machine.Runs` is the invariant of all reachable states: every task runs the code of a
thread of the program, and a task that waits for another one waits for one that was spawned after
it.
-/

namespace Interleaving

namespace Machine

variable {m m' : Machine} {id : Int} {seen : List Observation}

@[simp] theorem setTask_program (m : Machine) (id : Int) (t : TaskFrame) :
    (m.setTask id t).program = m.program := rfl

@[simp] theorem setTask_memory (m : Machine) (id : Int) (t : TaskFrame) :
    (m.setTask id t).memory = m.memory := rfl

@[simp] theorem setTask_holders (m : Machine) (id : Int) (t : TaskFrame) :
    (m.setTask id t).holders = m.holders := rfl

@[simp] theorem setTask_length (m : Machine) (id : Int) (t : TaskFrame) :
    (m.setTask id t).tasks.length = m.tasks.length := List.length_set

@[simp] theorem setTask_setTask (m : Machine) (id : Int) (t t' : TaskFrame) :
    (m.setTask id t).setTask id t' = m.setTask id t' := by
  simp [setTask, List.set_set]

@[simp] theorem touch_program (m : Machine) (p : Place) : (m.touch p).2.program = m.program := by
  unfold touch
  split <;> rfl

@[simp] theorem touch_tasks (m : Machine) (p : Place) : (m.touch p).2.tasks = m.tasks := by
  unfold touch
  split <;> rfl

@[simp] theorem touch_memory (m : Machine) (p : Place) : (m.touch p).2.memory = m.memory := by
  unfold touch
  split <;> rfl

@[simp] theorem touch_holders (m : Machine) (p : Place) : (m.touch p).2.holders = m.holders := by
  unfold touch
  split <;> rfl

/-- A task is ready and has passed the assertions in front of the instruction at a position; there
is no instruction at the end of the code. -/
structure StandsAt (m : Machine) (id : Int) (t : TaskFrame) (position : Nat)
    (i : Option Instruction) : Prop where
  task : m.task? id = some t
  ready : t.state = .ready
  passed : t.assertions = .passed position
  instruction : t.code[position]? = i

/-- The steps of a task that come to pass, with what is observed and the machine afterwards. -/
inductive Takes (m : Machine) (id : Int) : List Observation → Machine → Prop
  /-- A task that waited for a lock takes it. -/
  | acquired {t : TaskFrame} {lock : String} {m₁ : Machine} (ht : m.task? id = some t)
      (hs : t.state = .waiting lock) (hfree : m.holders.has lock = false)
      (hm : m₁ = { m.setTask id { t with state := .ready, position := t.position + 1 } with
        holders := m.holders.set lock id }) :
      Takes m id [.memory id .lockAcquired (m₁.touch (.lock lock)).1] (m₁.touch (.lock lock)).2
  /-- A task that waited for another one to finish goes on. -/
  | joined {t other : TaskFrame} {target : Int} (ht : m.task? id = some t)
      (hs : t.state = .joining target) (ho : m.task? target = some other)
      (hf : other.state = .finished) :
      Takes m id [.threadJoin id target]
        (m.setTask id { t with state := .ready, position := t.position + 1 })
  /-- One of the assertions in front of the task does not hold. -/
  | refuted {t : TaskFrame} {position : Nat} {message : String} (ht : m.task? id = some t)
      (hs : t.state = .ready) (ha : t.assertions = .failed position message) :
      Takes m id [.assertFailure id message]
        (m.setTask id { t with position, state := .failed })
  | finished {t : TaskFrame} {position : Nat} (h : m.StandsAt id t position none) :
      Takes m id [.threadFinish id] (m.setTask id { t with position, state := .finished })
  | read {t : TaskFrame} {position : Nat} {shared into : String} {m₁ : Machine}
      (h : m.StandsAt id t position (some (.read shared into)))
      (hm : m₁ = m.setTask id { t with
        position := position + 1
        registers := t.registers.set into ((m.memory.get? shared).getD .null) }) :
      Takes m id [.memory id .read (m₁.touch (.shared shared)).1] (m₁.touch (.shared shared)).2
  | write {t : TaskFrame} {position : Nat} {shared : String} {value : Expression} {v : Value}
      {m₁ : Machine} (h : m.StandsAt id t position (some (.write shared value)))
      (hv : t.eval value = .ok v)
      (hm : m₁ = { m.setTask id { t with position := position + 1 } with
        memory := m.memory.set shared v }) :
      Takes m id [.memory id .write (m₁.touch (.shared shared)).1] (m₁.touch (.shared shared)).2
  | fetchAdd {t : TaskFrame} {position : Nat} {shared into : String} {value : Expression}
      {delta n sum : Number} {m₁ : Machine}
      (h : m.StandsAt id t position (some (.fetchAdd shared into value)))
      (hv : t.evalNumber value = .ok delta)
      (hold : (m.memory.get? shared).getD .null = .number n) (hsum : n.add delta = .ok sum)
      (hm : m₁ = { m.setTask id { t with
          position := position + 1
          registers := if into = "" then t.registers
            else t.registers.set into ((m.memory.get? shared).getD .null) } with
        memory := m.memory.set shared (.number sum) }) :
      Takes m id [.memory id .readModifyWrite (m₁.touch (.shared shared)).1]
        (m₁.touch (.shared shared)).2
  /-- A lock that is taken leaves the task waiting. -/
  | lockTaken {t : TaskFrame} {position : Nat} {lock : String} {m₁ : Machine}
      (h : m.StandsAt id t position (some (.lock lock))) (htaken : m.holders.has lock = true)
      (hm : m₁ = m.setTask id { t with position, state := .waiting lock }) :
      Takes m id [.memory id .lockAcquire (m₁.touch (.lock lock)).1] (m₁.touch (.lock lock)).2
  | lockFree {t : TaskFrame} {position : Nat} {lock : String} {m₁ : Machine}
      (h : m.StandsAt id t position (some (.lock lock))) (hfree : m.holders.has lock = false)
      (hm : m₁ = { m.setTask id { t with position := position + 1 } with
        holders := m.holders.set lock id }) :
      Takes m id [.memory id .lockAcquire (m₁.touch (.lock lock)).1] (m₁.touch (.lock lock)).2
  | unlock {t : TaskFrame} {position : Nat} {lock : String} {m₁ : Machine}
      (h : m.StandsAt id t position (some (.unlock lock)))
      (hheld : m.holders.get? lock = some id)
      (hm : m₁ = { m.setTask id { t with position := position + 1 } with
        holders := m.holders.erase lock }) :
      Takes m id [.memory id .lockRelease (m₁.touch (.lock lock)).1] (m₁.touch (.lock lock)).2
  /-- A lock that the task does not hold cannot be released. -/
  | unlockRefused {t : TaskFrame} {position : Nat} {lock message : String}
      (h : m.StandsAt id t position (some (.unlock lock)))
      (hheld : m.holders.get? lock ≠ some id) :
      Takes m id [.assertFailure id message] (m.setTask id { t with position, state := .failed })
  | spawn {t : TaskFrame} {position : Nat} {thread : String}
      (h : m.StandsAt id t position (some (.spawn thread))) :
      Takes m id [.threadStart (m.tasks.length + 1) id]
        ((m.setTask id { t with
          position := position + 1
          children := t.children.set thread (m.tasks.length + 1) }).spawn thread)
  /-- A task starts to wait for one that it has spawned. -/
  | joins {t : TaskFrame} {position : Nat} {thread : String} {target : Int}
      (h : m.StandsAt id t position (some (.join thread)))
      (hchild : t.children.get? thread = some target) :
      Takes m id [] (m.setTask id { t with position, state := .joining target })
  /-- A task cannot wait for one that it has not spawned. -/
  | joinRefused {t : TaskFrame} {position : Nat} {thread message : String}
      (h : m.StandsAt id t position (some (.join thread)))
      (hchild : t.children.get? thread = none) :
      Takes m id [.assertFailure id message] (m.setTask id { t with position, state := .failed })
  | assume {t : TaskFrame} {position : Nat} {condition : Expression} {holds : Bool}
      (h : m.StandsAt id t position (some (.assume condition)))
      (hv : t.evalBool condition = .ok holds) :
      Takes m id [.assume id holds]
        (m.setTask id (if holds then { t with position := position + 1 }
          else { t with position, state := .parked }))

/-- A task in none of the final states is ready or waits. -/
theorem canStep_cases {t : TaskFrame} (h : m.canStep t = true) :
    t.state = .ready ∨
      (∃ target other, t.state = .joining target ∧ m.task? target = some other ∧
        other.state = .finished) ∨
      ∃ lock, t.state = .waiting lock ∧ m.holders.has lock = false := by
  unfold canStep at h
  split at h
  · exact Or.inl ‹_›
  · rename_i target hs
    split at h
    · rename_i other ho
      exact Or.inr (Or.inl ⟨target, other, hs, ho, of_decide_eq_true h⟩)
    · cases h
  · rename_i lock hs
    exact Or.inr (Or.inr ⟨lock, hs, by simpa using h⟩)
  · cases h

/-- The assertions in front of a task end at something else. -/
theorem TaskFrame.assertionsFrom_passed {t : TaskFrame} {rest : List Instruction}
    {position position' : Nat} (h : t.assertionsFrom rest position = .passed position') :
    position ≤ position' ∧ ∀ c msg, rest[position' - position]? ≠ some (.assert c msg) := by
  induction rest generalizing position with
  | nil =>
    cases h
    exact ⟨Nat.le_refl _, by simp⟩
  | cons i rest ih =>
    cases i with
    | assert condition message =>
      rw [TaskFrame.assertionsFrom] at h
      split at h
      · cases h
      · obtain ⟨hle, hne⟩ := ih h
        refine ⟨by omega, fun c msg => ?_⟩
        rw [show position' - position = position' - (position + 1) + 1 by omega,
          List.getElem?_cons_succ]
        exact hne c msg
      · cases h
    | _ =>
      cases h
      exact ⟨Nat.le_refl _, by simp⟩

/-- No task stands at an assertion. -/
theorem StandsAt.not_assert {t : TaskFrame} {position : Nat} {c : Expression} {msg : String} :
    ¬ m.StandsAt id t position (some (.assert c msg)) := by
  intro h
  obtain ⟨hle, hne⟩ := TaskFrame.assertionsFrom_passed h.passed
  refine hne c msg ?_
  rw [List.getElem?_drop, Nat.add_sub_cancel' hle]
  exact h.instruction

/-- A rule applies to a step on a variable or lock. -/
theorem takes_of_access {m₁ : Machine} {kind : Observation.Kind} {p : Place}
    (he : m₁.access id kind p = (.ok seen, m'))
    (h : Takes m id [.memory id kind (m₁.touch p).1] (m₁.touch p).2) : Takes m id seen m' := by
  have heq : m₁.access id kind p = (.ok [.memory id kind (m₁.touch p).1], (m₁.touch p).2) := rfl
  rw [heq] at he
  injection he with hseen hm
  injection hseen with hseen
  rwa [hseen, hm] at h

/-- A rule applies to a step with one observation. -/
theorem takes_of_observe {m₁ : Machine} {o : Observation} (he : m₁.observe o = (.ok seen, m'))
    (h : Takes m id [o] m₁) : Takes m id seen m' := by
  injection he with hseen hm
  injection hseen with hseen
  rwa [hseen, hm] at h

/-- An instruction is executed by its rule. -/
theorem takes_of_execute {t : TaskFrame} {position : Nat} {i : Instruction}
    (h : m.StandsAt id t position (some i))
    (he : (m.setTask id { t with position }).execute id { t with position } i = (.ok seen, m')) :
    Takes m id seen m' := by
  cases i with
  | read shared into =>
    exact takes_of_access he (.read h (setTask_setTask m id _ _))
  | write shared value =>
    simp only [execute] at he
    split at he
    · cases he
    · rename_i v hv
      exact takes_of_access he (.write h hv (by rw [setTask_setTask]; rfl))
  | fetchAdd shared into value =>
    simp only [execute] at he
    split at he
    · cases he
    · rename_i delta hv
      split at he
      · rename_i n hold
        split at he
        · cases he
        · rename_i sum hsum
          refine takes_of_access he (.fetchAdd h hv hold hsum ?_)
          rw [setTask_setTask]
          split <;> rfl
      · cases he
  | lock name =>
    simp only [execute] at he
    split at he
    · rename_i htaken
      exact takes_of_access he (.lockTaken h htaken (setTask_setTask m id _ _))
    · rename_i hfree
      refine takes_of_access he (.lockFree h (by simpa using hfree) ?_)
      rw [setTask_setTask]
      rfl
  | unlock name =>
    simp only [execute] at he
    split at he
    · rename_i hheld
      refine takes_of_access he (.unlock h hheld ?_)
      rw [setTask_setTask]
      rfl
    · rename_i hheld
      refine takes_of_observe he ?_
      rw [setTask_setTask]
      exact Takes.unlockRefused (t := t) h hheld
  | spawn thread =>
    refine takes_of_observe he ?_
    rw [setTask_setTask, setTask_length]
    exact .spawn h
  | join thread =>
    simp only [execute] at he
    split at he
    · rename_i target hchild
      injection he with hseen hm
      injection hseen with hseen
      rw [← hseen, ← hm, setTask_setTask]
      exact .joins h hchild
    · rename_i hchild
      refine takes_of_observe he ?_
      rw [setTask_setTask]
      exact Takes.joinRefused (t := t) h hchild
  | assert condition message => exact absurd h StandsAt.not_assert
  | assume condition =>
    simp only [execute] at he
    split at he
    · cases he
    · rename_i holds hv
      refine takes_of_observe he ?_
      rw [setTask_setTask]
      exact Takes.assume (t := t) h hv

/-- **Every step that comes to pass is by one of the rules.** -/
theorem takes_of_step (h : m.step id = (.ok seen, m')) : Takes m id seen m' := by
  unfold step at h
  split at h
  · cases h
  · rename_i t ht
    by_cases hc : m.canStep t = true
    · rw [if_neg (by simp [hc])] at h
      rcases canStep_cases hc with hs | ⟨target, other, hs, ho, hf⟩ | ⟨lock, hs, hfree⟩
      · rw [hs] at h
        dsimp only at h
        unfold stepReady at h
        split at h
        · cases h
        · rename_i position message ha
          exact takes_of_observe h (Takes.refuted (t := t) ht hs ha)
        · rename_i position ha
          dsimp only at h
          split at h
          · rename_i hend
            refine takes_of_observe h ?_
            rw [setTask_setTask]
            exact .finished ⟨ht, hs, ha, hend⟩
          · rename_i i hi
            exact takes_of_execute ⟨ht, hs, ha, hi⟩ h
      · rw [hs] at h
        exact takes_of_observe h (Takes.joined (t := t) ht hs ho hf)
      · rw [hs] at h
        exact takes_of_access h (Takes.acquired (t := t) ht hs hfree rfl)
    · rw [if_pos (by simpa using hc)] at h
      cases h

/-! ### What steps keep -/

theorem task?_eq_some {t : TaskFrame} :
    m.task? id = some t ↔ 1 ≤ id ∧ m.tasks[(id - 1).toNat]? = some t := by
  unfold task?
  split <;> simp [*]

/-- What becomes of the task that takes a step, with the thread that it spawned if it did: it stays
with its thread and its code, and it starts to wait only for a task that it has spawned. -/
structure Evolves (count : Nat) (t t' : TaskFrame) (spawned : Option String) : Prop where
  thread : t'.thread = t.thread
  code : t'.code = t.code
  children :
    t'.children = (spawned.map fun thread => t.children.set thread (count + 1)).getD t.children
  joining : ∀ target, t'.state = .joining target → ∃ thread, t.children.get? thread = some target

/-- The tasks after a step: the one that stepped has changed, and there is a new one if it spawned
one. -/
structure TasksAfter (m : Machine) (id : Int) (t t' : TaskFrame) (spawned : Option String)
    (m' : Machine) : Prop where
  task : m.task? id = some t
  evolves : Evolves m.tasks.length t t' spawned
  program : m'.program = m.program
  tasks : m'.tasks = m.tasks.set (id - 1).toNat t' ++
    (spawned.map fun thread =>
      TaskFrame.start thread ((m.program.threads.get? thread).getD [])).toList

/-- A step that spawns no task changes the task that takes it and nothing else about the tasks. -/
theorem tasksAfter_of_setTask {t t' : TaskFrame} (ht : m.task? id = some t)
    (htasks : m'.tasks = (m.setTask id t').tasks) (hprogram : m'.program = m.program)
    (hthread : t'.thread = t.thread) (hcode : t'.code = t.code)
    (hchildren : t'.children = t.children)
    (hjoining : ∀ target, t'.state = .joining target →
      ∃ thread, t.children.get? thread = some target) :
    TasksAfter m id t t' none m' :=
  ⟨ht, ⟨hthread, hcode, hchildren, hjoining⟩, hprogram, by
    rw [htasks, Option.map_none, Option.toList_none, List.append_nil]
    rfl⟩

/-- **What every step does to the tasks.** -/
theorem Takes.tasksAfter (h : Takes m id seen m') :
    ∃ t t' spawned, TasksAfter m id t t' spawned m' := by
  -- only the first turn of a join makes a task wait for another one
  have hnone : ∀ {t : TaskFrame} (state : TaskState), (∀ target, state ≠ .joining target) →
      ∀ target, state = .joining target → ∃ thread, t.children.get? thread = some target :=
    fun state hne target heq => absurd heq (hne target)
  cases h with
  | acquired ht hs hfree hm =>
    subst hm
    exact ⟨_, _, none, tasksAfter_of_setTask ht (touch_tasks _ _) (touch_program _ _)
      rfl rfl rfl (hnone _ (by simp))⟩
  | joined ht hs ho hf =>
    exact ⟨_, _, none, tasksAfter_of_setTask ht rfl rfl rfl rfl rfl (hnone _ (by simp))⟩
  | refuted ht hs ha =>
    exact ⟨_, _, none, tasksAfter_of_setTask ht rfl rfl rfl rfl rfl (hnone _ (by simp))⟩
  | finished h =>
    exact ⟨_, _, none, tasksAfter_of_setTask h.task rfl rfl rfl rfl rfl (hnone _ (by simp))⟩
  | read h hm =>
    subst hm
    exact ⟨_, _, none, tasksAfter_of_setTask h.task (touch_tasks _ _) (touch_program _ _)
      rfl rfl rfl (hnone _ (by simp [h.ready]))⟩
  | write h hv hm =>
    subst hm
    exact ⟨_, _, none, tasksAfter_of_setTask h.task (touch_tasks _ _) (touch_program _ _)
      rfl rfl rfl (hnone _ (by simp [h.ready]))⟩
  | fetchAdd h hv hold hsum hm =>
    subst hm
    exact ⟨_, _, none, tasksAfter_of_setTask h.task (touch_tasks _ _) (touch_program _ _)
      rfl rfl rfl (hnone _ (by simp [h.ready]))⟩
  | lockTaken h htaken hm =>
    subst hm
    exact ⟨_, _, none, tasksAfter_of_setTask h.task (touch_tasks _ _) (touch_program _ _)
      rfl rfl rfl (hnone _ (by simp))⟩
  | lockFree h hfree hm =>
    subst hm
    exact ⟨_, _, none, tasksAfter_of_setTask h.task (touch_tasks _ _) (touch_program _ _)
      rfl rfl rfl (hnone _ (by simp [h.ready]))⟩
  | unlock h hheld hm =>
    subst hm
    exact ⟨_, _, none, tasksAfter_of_setTask h.task (touch_tasks _ _) (touch_program _ _)
      rfl rfl rfl (hnone _ (by simp [h.ready]))⟩
  | unlockRefused h hheld =>
    exact ⟨_, _, none, tasksAfter_of_setTask h.task rfl rfl rfl rfl rfl (hnone _ (by simp))⟩
  | @spawn t position thread h =>
    refine ⟨t, { t with
      position := position + 1
      children := t.children.set thread (m.tasks.length + 1) }, some thread, h.task, ?_, rfl, rfl⟩
    exact ⟨rfl, rfl, rfl, hnone _ (by simp [h.ready])⟩
  | joins h hchild =>
    refine ⟨_, _, none, tasksAfter_of_setTask h.task rfl rfl rfl rfl rfl ?_⟩
    intro target heq
    cases heq
    exact ⟨_, hchild⟩
  | joinRefused h hchild =>
    exact ⟨_, _, none, tasksAfter_of_setTask h.task rfl rfl rfl rfl rfl (hnone _ (by simp))⟩
  | @assume t position condition holds h hv =>
    cases holds with
    | true =>
      exact ⟨t, _, none,
        tasksAfter_of_setTask h.task rfl rfl rfl rfl rfl (hnone _ (by simp [h.ready]))⟩
    | false =>
      exact ⟨t, _, none, tasksAfter_of_setTask h.task rfl rfl rfl rfl rfl (hnone _ (by simp))⟩

/-- The threads that tasks run, in the order in which they were spawned: no step changes those that
are there. -/
theorem TasksAfter.threads {t t' : TaskFrame} {spawned : Option String}
    (h : TasksAfter m id t t' spawned m') :
    m'.tasks.map (·.thread) = m.tasks.map (·.thread) ++ spawned.toList := by
  obtain ⟨-, ht⟩ := task?_eq_some.mp h.task
  have hset : (m.tasks.set (id - 1).toNat t').map (·.thread) = m.tasks.map (·.thread) := by
    rw [List.map_set, h.evolves.thread]
    refine List.ext_getElem? fun i => ?_
    rw [List.getElem?_set]
    split
    · rename_i heq
      subst heq
      have hlt : (id - 1).toNat < (m.tasks.map (·.thread)).length := by
        rw [List.length_map]
        exact (List.getElem?_eq_some_iff.mp ht).1
      rw [if_pos hlt, List.getElem?_map, ht]
      rfl
    · rfl
  rw [h.tasks, List.map_append, hset]
  cases spawned <;> rfl

/-- **The invariant of the tasks.** The first task runs the main thread, every task runs the code of
its thread, and knows and waits only for tasks that were spawned after it. -/
structure Runs (p : Program) (m : Machine) : Prop where
  program : m.program = p
  main : (m.tasks.map (·.thread)).head? = some Program.mainThread
  code : ∀ t ∈ m.tasks, t.code = codeOf ((p.threads.get? t.thread).getD [])
  children : ∀ (i : Nat) (t : TaskFrame), m.tasks[i]? = some t → ∀ thread (target : Int),
    t.children.get? thread = some target → (i : Int) + 1 < target ∧ target ≤ m.tasks.length
  joining : ∀ (i : Nat) (t : TaskFrame), m.tasks[i]? = some t → ∀ target : Int,
    t.state = .joining target → (i : Int) + 1 < target ∧ target ≤ m.tasks.length

/-- The invariant holds at the start of a run. -/
theorem runs_reset (p : Program) (n : Int) : ((ofProgram p).reset n).2.Runs p where
  program := rfl
  main := rfl
  code := by
    intro t ht
    obtain rfl := List.mem_singleton.mp ht
    rfl
  children := by
    intro i t ht thread target hchild
    cases i with
    | zero =>
      cases ht
      simp [TaskFrame.start] at hchild
    | succ i => cases ht
  joining := by
    intro i t ht target hs
    cases i with
    | zero =>
      cases ht
      cases hs
    | succ i => cases ht

/-- **The invariant is kept by every step.** -/
theorem Runs.takes {p : Program} (hr : m.Runs p) (h : Takes m id seen m') : m'.Runs p := by
  obtain ⟨t, t', spawned, hafter⟩ := h.tasksAfter
  obtain ⟨hid, ht⟩ := task?_eq_some.mp hafter.task
  have hev := hafter.evolves
  have hlen : m.tasks.length ≤ m'.tasks.length := by simp [hafter.tasks]
  -- a task after the step is an old one, the one that stepped, or the one that was spawned
  have hcases : ∀ (i : Nat) (u : TaskFrame), m'.tasks[i]? = some u →
      (m.tasks[i]? = some u) ∨ (i = (id - 1).toNat ∧ u = t') ∨
        ∃ thread, spawned = some thread ∧
          u = .start thread ((m.program.threads.get? thread).getD []) := by
    intro i u hu
    rw [hafter.tasks, List.getElem?_append] at hu
    split at hu
    · rw [List.getElem?_set] at hu
      split at hu
      · rename_i hlt heq
        split at hu
        · cases hu
          exact Or.inr (Or.inl ⟨heq.symm, rfl⟩)
        · cases hu
      · exact Or.inl hu
    · cases spawned with
      | none => simp at hu
      | some thread =>
        have hmem := List.mem_of_getElem? hu
        simp only [Option.map_some, Option.toList_some, List.mem_singleton] at hmem
        exact Or.inr (Or.inr ⟨thread, rfl, hmem⟩)
  have hold : ∀ thread (target : Int), t.children.get? thread = some target →
      id < target ∧ target ≤ m'.tasks.length := by
    intro thread target hchild
    have := hr.children _ t ht thread target hchild
    omega
  refine ⟨hafter.program.trans hr.program, ?_, ?_, ?_, ?_⟩
  · rw [hafter.threads, List.head?_append, hr.main]
    rfl
  · intro u hu
    obtain ⟨i, hi, hget⟩ := List.mem_iff_getElem.mp hu
    rcases hcases i u (by rw [← hget]; exact List.getElem?_eq_getElem hi) with
      h | ⟨-, rfl⟩ | ⟨thread, -, rfl⟩
    · exact hr.code u (List.mem_of_getElem? h)
    · rw [hev.code, hev.thread]
      exact hr.code t (List.mem_of_getElem? ht)
    · rw [hr.program]
      rfl
  · intro i u hu thread target hchild
    rcases hcases i u hu with h | ⟨rfl, rfl⟩ | ⟨name, -, rfl⟩
    · have := hr.children i u h thread target hchild
      omega
    · rw [hev.children] at hchild
      cases spawned with
      | none =>
        have := hold thread target hchild
        omega
      | some name =>
        by_cases hname : thread = name
        · subst hname
          rw [Option.map_some, Option.getD_some, Dictionary.get?_set_self] at hchild
          cases hchild
          have hlt : (id - 1).toNat < m.tasks.length := (List.getElem?_eq_some_iff.mp ht).1
          have hcount : m'.tasks.length = m.tasks.length + 1 := by simp [hafter.tasks]
          omega
        · rw [Option.map_some, Option.getD_some, Dictionary.get?_set_of_ne _ hname] at hchild
          have := hold thread target hchild
          omega
    · simp [TaskFrame.start] at hchild
  · intro i u hu target hs
    rcases hcases i u hu with h | ⟨rfl, rfl⟩ | ⟨name, -, rfl⟩
    · have := hr.joining i u h target hs
      omega
    · obtain ⟨thread, hchild⟩ := hev.joining target hs
      have := hold thread target hchild
      omega
    · cases hs

/-- **The invariant holds along every schedule.** -/
theorem Runs.follow? {p : Program} (hr : m.Runs p) {ids : List Int}
    (hf : m.follow? ids = some (seen, m')) : m'.Runs p := by
  induction ids generalizing m seen with
  | nil =>
    cases hf
    exact hr
  | cons id ids ih =>
    obtain ⟨first, rest, m₁, hstep, hrest, -⟩ := follow?_cons_eq_some hf
    exact ih (hr.takes (takes_of_step hstep)) hrest

end Machine

end Interleaving
