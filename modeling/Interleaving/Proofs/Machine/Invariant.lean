import Interleaving.Proofs.Machine.Effect
import Interleaving.Proofs.Program.Validity

/-!
# What holds in every state

A machine may be asked for any step at any time; one that is refused or fails leaves a state, too
(`Interleaving.Machine.after`). Every state that a valid program can come to is **sound**
(`Interleaving.Machine.IsSound`): the tasks are numbered in the order in which their starts were
observed; each stands at one of its operations or behind the last one, and waits only where its
operation says so; a step of a task that is not active is refused and changes nothing; everything
that an instruction needs is there; and no two places share a number. Along the way every lock is
taken and given back in turn (`Interleaving.Machine.Alternates`).

What invariants need of a step is said once, in terms of its effect: the task afterwards
(`Interleaving.Machine.stands_effect`), the children (`Interleaving.Machine.effect_children`), the
tasks that start (`Interleaving.Machine.starts_effect`) and the locks
(`Interleaving.Machine.lockTurn?_eq`).

Steps of active tasks fail only if an expression cannot be evaluated, with one exception: a
fetch-and-add of two opposite infinities **breaks down** (`Interleaving.Program.breaks_down`).
-/

namespace Interleaving

namespace Machine

variable {m : Machine} {id : Int} {t : TaskFrame}

/-! ### Driving a machine -/

/-- The machine after some steps, whether they come to pass or not. -/
def after (m : Machine) : List Int → Machine
  | [] => m
  | id :: ids => (m.step id).2.after ids

/-- What is observed of a step. -/
def seenBy (m : Machine) (id : Int) : List Observation := (m.step id).1.toOption.getD []

/-- What is observed of some steps. -/
def shown (m : Machine) : List Int → List Observation
  | [] => []
  | id :: ids => m.seenBy id ++ (m.step id).2.shown ids

/-! ### Where tasks stand -/

/-- The position after assertions. -/
def Assertions.position : Assertions → Nat
  | .passed position => position
  | .failed position _ => position
  | .fault position _ => position

/-- Assertions do not lead beyond the code. -/
theorem assertionsFrom_position_le (t : TaskFrame) (rest : List Instruction) (position : Nat) :
    (t.assertionsFrom rest position).position ≤ position + rest.length := by
  induction rest generalizing position with
  | nil => exact Nat.le_refl _
  | cons i rest ih =>
    cases i with
    | assert condition message =>
      rw [TaskFrame.assertionsFrom]
      split
      · exact Nat.le_add_right _ _
      · have := ih (position + 1)
        rw [List.length_cons]
        omega
      · exact Nat.le_add_right _ _
    | _ => exact Nat.le_add_right _ _

theorem assertions_position_le (h : t.position ≤ t.code.length) :
    t.assertions.position ≤ t.code.length := by
  have hle := assertionsFrom_position_le t (t.code.drop t.position) t.position
  rw [List.length_drop, Nat.add_sub_cancel' h] at hle
  exact hle

/-- A task stands at one of its instructions or behind the last one, and waits only where its
instruction says so. -/
structure TaskFrame.Stands (t : TaskFrame) : Prop where
  position : t.position ≤ t.code.length
  joining : ∀ target, t.state = .joining target →
    ∃ thread, t.code[t.position]? = some (.join thread) ∧ t.children.get? thread = some target
  waiting : ∀ lock, t.state = .waiting lock → t.code[t.position]? = some (.lock lock)

/-- A task that waits for nothing stands well wherever it is in its code. -/
theorem stands_of_not_waiting (hposition : t.position ≤ t.code.length)
    (hj : ∀ target, t.state ≠ .joining target) (hw : ∀ lock, t.state ≠ .waiting lock) : t.Stands :=
  ⟨hposition, fun target hs => absurd hs (hj target), fun lock hs => absurd hs (hw lock)⟩

theorem stands_start (thread : String) (ops : List Operation) :
    (TaskFrame.start thread ops).Stands :=
  stands_of_not_waiting (Nat.zero_le _) (by simp [TaskFrame.start]) (by simp [TaskFrame.start])

/-- Behind an instruction there still is code or its end. -/
theorem lt_of_instruction {i : Instruction} {position : Nat} (h : t.code[position]? = some i) :
    position + 1 ≤ t.code.length :=
  (List.getElem?_eq_some_iff.mp h).1

/-- A ready task that has advanced. -/
theorem stands_advance (hs : t.state = .ready) {i : Instruction} (hi : t.code[t.position]? = some i)
    (registers : Dictionary Value) (children : Dictionary Int) :
    TaskFrame.Stands { t with registers, children, position := t.position + 1 } :=
  stands_of_not_waiting (lt_of_instruction hi) (by simp [hs]) (by simp [hs])

theorem stands_effectOf {i : Instruction} (hs : t.state = .ready)
    (hi : t.code[t.position]? = some i) : (m.effectOf id t i).frame.Stands := by
  have hself : t.Stands :=
    stands_of_not_waiting (Nat.le_of_lt (lt_of_instruction hi)) (by simp [hs]) (by simp [hs])
  have hadvance : t.advance.Stands := stands_advance hs hi t.registers t.children
  have hfailing : ∀ message, (failing id t message).frame.Stands := fun _ =>
    stands_of_not_waiting hself.position (by simp [failing]) (by simp [failing])
  cases i with
  | read shared into => exact stands_advance hs hi _ _
  | write shared value =>
    simp only [effectOf]
    split
    · exact hself
    · exact hadvance
  | fetchAdd shared into value =>
    simp only [effectOf]
    repeat' split
    all_goals first | exact hself | exact stands_advance hs hi _ _
  | lock name =>
    simp only [effectOf]
    split
    · exact ⟨hself.position, by simp, fun lock hlock => by cases hlock; exact hi⟩
    · exact hadvance
  | unlock name =>
    simp only [effectOf]
    split
    · exact hadvance
    · exact hfailing _
  | spawn thread => exact stands_advance hs hi _ _
  | join thread =>
    simp only [effectOf]
    split
    · rename_i target hchild
      exact ⟨hself.position,
        fun target' htarget => by cases htarget; exact ⟨thread, hi, hchild⟩, by simp⟩
    · exact hfailing _
  | assume condition =>
    simp only [effectOf]
    split
    · exact hself
    · dsimp only
      split
      · exact hadvance
      · exact stands_of_not_waiting hself.position (by simp) (by simp)
  | assert condition message => exact hself

/-- **A step leaves its task standing well.** -/
theorem stands_effect (h : t.Stands) (hstep : m.canStep t = true) :
    (m.effect id t).frame.Stands := by
  rcases canStep_cases hstep with hs | ⟨target, other, hs, -, -⟩ | ⟨lock, hs, -⟩
  · have hle := assertions_position_le h.position
    rw [effect, hs]
    dsimp only
    rw [effectReady]
    cases ha : t.assertions with
    | fault position fault =>
      rw [ha] at hle
      exact stands_of_not_waiting hle (by simp [hs]) (by simp [hs])
    | failed position message =>
      rw [ha] at hle
      exact stands_of_not_waiting hle (by simp [failing]) (by simp [failing])
    | passed position =>
      rw [ha] at hle
      cases hi : t.code[position]? with
      | none =>
        simp only [hi]
        exact stands_of_not_waiting hle (by simp) (by simp)
      | some i =>
        simp only [hi]
        exact stands_effectOf hs hi
  · obtain ⟨thread, hi, -⟩ := h.joining target hs
    rw [effect, hs]
    exact stands_of_not_waiting (lt_of_instruction hi) (by simp [TaskFrame.advance])
      (by simp [TaskFrame.advance])
  · rw [effect, hs]
    exact stands_of_not_waiting (lt_of_instruction (h.waiting lock hs))
      (by simp [TaskFrame.advance]) (by simp [TaskFrame.advance])

/-! ### Threads, code and children -/

/-- An effect leaves a task with its thread and its code; its children are those that it had, and
the new one. -/
structure Effect.Keeps (count : Nat) (t : TaskFrame) (e : Effect) : Prop where
  thread : e.frame.thread = t.thread
  code : e.frame.code = t.code
  children : e.frame.children =
    (e.spawned.map fun thread => t.children.set thread (count + 1)).getD t.children

theorem keeps_effectOf (m : Machine) (id : Int) (t : TaskFrame) (i : Instruction) :
    (m.effectOf id t i).Keeps m.tasks.length t := by
  cases i <;> simp only [effectOf] <;> (repeat' split) <;> exact ⟨rfl, rfl, rfl⟩

theorem keeps_effect (m : Machine) (id : Int) (t : TaskFrame) :
    (m.effect id t).Keeps m.tasks.length t := by
  unfold effect effectReady
  split
  · exact ⟨rfl, rfl, rfl⟩
  · exact ⟨rfl, rfl, rfl⟩
  · split
    · exact ⟨rfl, rfl, rfl⟩
    · exact ⟨rfl, rfl, rfl⟩
    · split
      · exact ⟨rfl, rfl, rfl⟩
      · rename_i position _ _ i _
        have h := keeps_effectOf m id { t with position } i
        exact ⟨h.thread, h.code, h.children⟩

/-! ### Starts -/

/-- The starts of threads among observations. -/
def startsIn (seen : List Observation) : List Observation :=
  seen.filter fun o => o.kind = .threadStart

/-- What a step reports is the start of the task that it spawns, and of no other one. -/
theorem starts_effectOf (f : Place → Location) (i : Instruction) :
    startsIn (((m.effectOf id t i).report.result id f).toOption.getD []) =
      ((m.effectOf id t i).spawned.map fun _ =>
        Observation.threadStart (m.tasks.length + 1) id).toList := by
  cases i <;> simp only [effectOf] <;> (repeat' split) <;> rfl

theorem starts_effect (f : Place → Location) :
    startsIn (((m.effect id t).report.result id f).toOption.getD []) =
      ((m.effect id t).spawned.map fun _ =>
        Observation.threadStart (m.tasks.length + 1) id).toList := by
  unfold effect effectReady
  split
  · rfl
  · rfl
  · split
    · rfl
    · rfl
    · split
      · rfl
      · exact starts_effectOf f _

/-! ### Failures -/

/-- A fetch-and-add that is about to add two opposite infinities. -/
def AddsOpposites (m : Machine) (t : TaskFrame) : Prop :=
  ∃ shared into value negative, t.next? = some (.fetchAdd shared into value) ∧
    m.memory.get? shared = some (.number (.infinite negative)) ∧
    t.evalNumber value = .ok (.infinite !negative)

/-- Only opposite infinities have no sum. -/
theorem eq_opposite_of_add {n delta : Number} {cause : Number.Undefined}
    (h : n.add delta = .error cause) :
    ∃ negative, n = .infinite negative ∧ delta = .infinite !negative := by
  unfold Number.add at h
  split at h
  · rename_i a b
    split at h
    · cases h
    · rename_i hne
      refine ⟨a, rfl, ?_⟩
      cases a <;> cases b <;> simp_all
  · cases h
  · cases h
  · split at h <;> cases h

/-- Evaluating never breaks down. -/
theorem eval_ne_breakdown {e : Expression} {cause : Number.Undefined} :
    t.eval e ≠ .error (.breakdown cause) := by
  unfold TaskFrame.eval
  split <;> simp

theorem evalNumber_ne_breakdown {e : Expression} {cause : Number.Undefined} :
    t.evalNumber e ≠ .error (.breakdown cause) := by
  simp only [TaskFrame.evalNumber, bind, Except.bind]
  split
  · rename_i fault hfault
    intro heq
    cases heq
    exact eval_ne_breakdown hfault
  · split <;> rintro ⟨⟩

theorem evalBool_ne_breakdown {e : Expression} {cause : Number.Undefined} :
    t.evalBool e ≠ .error (.breakdown cause) := by
  simp only [TaskFrame.evalBool, bind, Except.bind]
  split
  · rename_i fault hfault
    intro heq
    cases heq
    exact eval_ne_breakdown hfault
  · split <;> rintro ⟨⟩

theorem assertionsFrom_ne_breakdown {rest : List Instruction} {position position' : Nat}
    {cause : Number.Undefined} :
    t.assertionsFrom rest position ≠ .fault position' (.breakdown cause) := by
  induction rest generalizing position with
  | nil => simp [TaskFrame.assertionsFrom]
  | cons i rest ih =>
    cases i with
    | assert condition message =>
      rw [TaskFrame.assertionsFrom]
      split
      · rename_i fault hfault
        intro heq
        cases heq
        exact evalBool_ne_breakdown hfault
      · exact ih
      · simp
    | _ => simp [TaskFrame.assertionsFrom]

/-- A step fails because an expression cannot be evaluated, or because it adds opposite
infinities. -/
def FailsWell (m : Machine) (id : Int) (t : TaskFrame) (e : Error) : Prop :=
  ∃ fault, e = .evaluation id t.thread fault ∧ ∀ cause, fault = .breakdown cause → m.AddsOpposites t

theorem fault_effectOf {i : Instruction} {e : Error} {position : Nat}
    (hi : t.next? = some i) (h : (m.effectOf id { t with position } i).report = .fault e) :
    m.FailsWell id t e := by
  cases i with
  | write shared value =>
    simp only [effectOf] at h
    split at h
    · rename_i fault hfault
      cases h
      exact ⟨fault, rfl, fun cause heq => absurd (heq ▸ hfault) eval_ne_breakdown⟩
    · cases h
  | fetchAdd shared into value =>
    simp only [effectOf] at h
    split at h
    · rename_i fault hfault
      cases h
      exact ⟨fault, rfl, fun cause heq => absurd (heq ▸ hfault) evalNumber_ne_breakdown⟩
    · rename_i delta hdelta
      split at h
      · rename_i n hold
        split at h
        · rename_i cause hsum
          cases h
          obtain ⟨negative, rfl, rfl⟩ := eq_opposite_of_add hsum
          refine ⟨_, rfl, fun _ _ => ⟨shared, into, value, negative, hi, ?_, hdelta⟩⟩
          cases hget : m.memory.get? shared with
          | none => rw [hget] at hold; cases hold
          | some v => rw [hget] at hold; rw [← hold]; rfl
        · cases h
      · cases h
        exact ⟨_, rfl, fun cause heq => by cases heq⟩
  | lock name =>
    simp only [effectOf] at h
    split at h <;> cases h
  | unlock name =>
    simp only [effectOf] at h
    split at h <;> cases h
  | join thread =>
    simp only [effectOf] at h
    split at h <;> cases h
  | assume condition =>
    simp only [effectOf] at h
    split at h
    · rename_i fault hfault
      cases h
      exact ⟨fault, rfl, fun cause heq => absurd (heq ▸ hfault) evalBool_ne_breakdown⟩
    · cases h
  | _ => cases h

/-- **Steps that can be taken fail for a reason.** -/
theorem fault_effect {e : Error} (hstep : m.canStep t = true)
    (h : (m.effect id t).report = .fault e) : m.FailsWell id t e := by
  rcases canStep_cases hstep with hs | ⟨target, other, hs, -, -⟩ | ⟨lock, hs, -⟩
  · rw [effect, hs] at h
    dsimp only at h
    rw [effectReady] at h
    cases ha : t.assertions with
    | fault position fault =>
      rw [ha] at h
      cases h
      exact ⟨fault, rfl, fun cause heq => absurd (heq ▸ ha) assertionsFrom_ne_breakdown⟩
    | failed position message =>
      rw [ha] at h
      cases h
    | passed position =>
      simp only [ha] at h
      split at h
      · cases h
      · rename_i i hi
        have hnext : t.next? = some i := by rw [TaskFrame.next?, hs, ha]; exact hi
        exact fault_effectOf hnext h
  · rw [effect, hs] at h
    cases h
  · rw [effect, hs] at h
    cases h

/-! ### Turns at a lock -/

/-- What a step does to a lock. -/
inductive LockTurn where
  | takes
  | gives
deriving DecidableEq

/-- What a report means for the lock that it is about: an attempt takes the lock unless the task has
to wait. -/
def turnOf (waits : Bool) : Observation.Kind → Option LockTurn
  | .lockAcquired => some .takes
  | .lockAcquire => if waits then none else some .takes
  | .lockRelease => some .gives
  | _ => none

/-- What the next step of a task does to a lock, as far as can be seen. -/
def lockTurn? (m : Machine) (lock : String) (id : Int) : Option LockTurn :=
  match m.task? id with
  | none => none
  | some t =>
    if t.lock? = some lock then
      let waits := ((m.step id).2.task? id).any fun t => t.state = .waiting lock
      (m.seenBy id).findSome? fun o => turnOf waits o.kind
    else none

/-- The turns at a lock in some steps, each with the task that takes or gives. -/
def turns (m : Machine) (lock : String) : List Int → List (Int × LockTurn)
  | [] => []
  | id :: ids => ((m.lockTurn? lock id).map fun turn => (id, turn)).toList ++
      (m.step id).2.turns lock ids

/-- Takes and gives alternate, and who gives is who has taken before. -/
def Alternates : Option Int → List (Int × LockTurn) → Prop
  | _, [] => True
  | none, (id, .takes) :: rest => Alternates (some id) rest
  | some holder, (id, .gives) :: rest => id = holder ∧ Alternates none rest
  | _, _ => False

/-- What an effect does to a lock. -/
def Effect.turn? (e : Effect) (lock : String) : Option LockTurn :=
  match e.turned with
  | some (other, holder) =>
    if other = lock then some (if holder.isSome then .takes else .gives) else none
  | none => none

/-- Without a turn there is none to be seen. -/
theorem turn?_of_ne {e : Effect} {lock : String} (h : ∀ holder, e.turned ≠ some (lock, holder)) :
    e.turn? lock = none := by
  unfold Effect.turn?
  split
  · rename_i other holder hturned
    split
    · rename_i heq
      rw [heq] at hturned
      exact absurd hturned (h holder)
    · rfl
  · rfl

/-- The turn of an instruction about a lock is what can be seen of it. -/
theorem turn?_effectOf {lock : String} {i : Instruction} (hs : t.state = .ready)
    (hi : lockOf i = some lock) (f : Place → Location) :
    (((m.effectOf id t i).report.result id f).toOption.getD []).findSome?
        (fun o => turnOf (decide ((m.effectOf id t i).frame.state = .waiting lock)) o.kind) =
      (m.effectOf id t i).turn? lock := by
  cases i with
  | lock name =>
    cases hi
    simp only [effectOf]
    split
    · simp [Report.result, Except.toOption, Observation.memory, turnOf, Effect.turn?]
    · simp [Report.result, Except.toOption, Observation.memory, turnOf, Effect.turn?,
        TaskFrame.advance, hs]
  | unlock name =>
    cases hi
    simp only [effectOf]
    split
    · simp [Report.result, Except.toOption, Observation.memory, turnOf, Effect.turn?]
    · simp [Report.result, Except.toOption, Observation.assertFailure, turnOf,
        Effect.turn?, failing]
  | _ => cases hi

/-- What is seen of a step that can be taken. -/
theorem seenBy_eq (ht : m.task? id = some t) (hstep : m.canStep t = true) :
    m.seenBy id = ((m.effect id t).report.result id fun p => (m.touch p).1).toOption.getD [] := by
  rw [seenBy, step_eq_perform ht hstep, perform_fst]

/-- Nothing is seen of a step that is refused. -/
theorem seenBy_of_not_isActive (h : m.isActive id = false) : m.seenBy id = [] := by
  rw [seenBy, step_of_not_isActive h]
  rfl

/-- **The turn of a step is what can be seen of it.** -/
theorem lockTurn?_eq (ht : m.task? id = some t) (hstep : m.canStep t = true) (lock : String) :
    m.lockTurn? lock id = (m.effect id t).turn? lock := by
  rw [lockTurn?, ht]
  dsimp only
  by_cases hlock : t.lock? = some lock
  · rw [if_pos hlock, seenBy_eq ht hstep, step_eq_perform ht hstep, task?_perform_self ht,
      Option.any_some]
    rcases canStep_cases hstep with hs | ⟨target, other, hs, -, -⟩ | ⟨lock', hs, -⟩
    · cases ha : t.assertions with
      | passed position =>
        cases hi : t.code[position]? with
        | none => simp [TaskFrame.lock?, TaskFrame.next?, hs, ha, hi] at hlock
        | some i =>
          have hof : lockOf i = some lock := by
            simpa [TaskFrame.lock?, TaskFrame.next?, hs, ha, hi] using hlock
          have heffect : m.effect id t = m.effectOf id { t with position } i := by
            unfold effect
            simp only [hs]
            rw [effectReady]
            simp only [ha, hi, hs]
          rw [heffect]
          exact turn?_effectOf (t := { t with position }) hs hof _
      | _ => simp [TaskFrame.lock?, TaskFrame.next?, hs, ha] at hlock
    · simp [TaskFrame.lock?, TaskFrame.next?, hs] at hlock
    · have hsame : lock' = lock := by simpa [TaskFrame.lock?, hs] using hlock
      subst hsame
      rw [effect, hs]
      simp [Report.result, Except.toOption, Observation.memory, turnOf, Effect.turn?]
  · rw [if_neg hlock, turn?_of_ne fun holder hturned => hlock (lock?_of_turned hturned)]

theorem turned_effectOf {i : Instruction} {lock : String} {holder : Option Int}
    (h : (m.effectOf id t i).turned = some (lock, holder)) :
    holder = some id ∧ m.holders.get? lock = none ∨
    holder = none ∧ m.holders.get? lock = some id := by
  cases i with
  | lock name =>
    simp only [effectOf] at h
    split at h
    · cases h
    · rename_i hfree
      cases h
      exact .inl ⟨rfl, by simpa [Dictionary.has] using hfree⟩
  | unlock name =>
    simp only [effectOf] at h
    split at h
    · rename_i hheld
      cases h
      exact .inr ⟨rfl, hheld⟩
    · cases h
  | _ =>
    revert h
    simp only [effectOf]
    (repeat' split) <;> simp [failing]

/-- **A lock is taken when it is free and given back by its holder.** -/
theorem turned_effect (hstep : m.canStep t = true) {lock : String} {holder : Option Int}
    (h : (m.effect id t).turned = some (lock, holder)) :
    holder = some id ∧ m.holders.get? lock = none ∨
    holder = none ∧ m.holders.get? lock = some id := by
  rcases canStep_cases hstep with hs | ⟨target, other, hs, -, -⟩ | ⟨lock', hs, hfree⟩
  · rw [effect, hs] at h
    dsimp only at h
    rw [effectReady] at h
    split at h
    · cases h
    · cases h
    · split at h
      · cases h
      · exact turned_effectOf h
  · rw [effect, hs] at h
    cases h
  · rw [effect, hs] at h
    cases h
    exact .inl ⟨rfl, by simpa [Dictionary.has] using hfree⟩

/-- **Turns at a lock alternate**, whatever steps a machine is asked for. -/
theorem alternates_turns (m : Machine) (lock : String) (ids : List Int) :
    Alternates (m.holders.get? lock) (m.turns lock ids) := by
  induction ids generalizing m with
  | nil => cases m.holders.get? lock <;> exact trivial
  | cons id ids ih =>
    cases hact : m.isActive id with
    | false =>
      have hnone : m.lockTurn? lock id = none := by
        unfold lockTurn?
        split
        · rfl
        · rw [seenBy_of_not_isActive hact]
          simp
      rw [turns, hnone, step_of_not_isActive hact]
      exact ih m
    | true =>
      obtain ⟨t, ht, hstep⟩ := exists_task_of_isActive hact
      have hholders : (m.step id).2.holders = (m.effect id t).holders m.holders := by
        rw [step_eq_perform ht hstep, perform_snd, touched_holders]
        rfl
      have hrest := ih (m.step id).2
      rw [hholders] at hrest
      rw [turns, lockTurn?_eq ht hstep]
      by_cases hturned : ∃ holder, (m.effect id t).turned = some (lock, holder)
      · obtain ⟨holder, hturned⟩ := hturned
        rw [get?_holders_of_eq hturned] at hrest
        rw [Effect.turn?, hturned]
        rcases turned_effect hstep hturned with ⟨rfl, hfree⟩ | ⟨rfl, hheld⟩
        · rw [hfree]
          simpa [Alternates] using hrest
        · rw [hheld]
          simpa [Alternates] using hrest
      · have hne : ∀ holder, (m.effect id t).turned ≠ some (lock, holder) :=
          fun holder h => hturned ⟨holder, h⟩
        rw [get?_holders_of_ne hne] at hrest
        rw [turn?_of_ne hne]
        exact hrest

/-! ### Numbers of places -/

/-- The places have got the numbers behind a base, one after the other. -/
structure Numbered (base : Int) (m : Machine) : Prop where
  numbers : m.places.map (·.2) = (List.range m.places.length).map fun i : Nat =>
    Word.wrap (base + i + 1)
  last : m.lastLocation = Word.wrap (base + m.places.length)

theorem wrap_wrap_add (a b : Int) : Word.wrap (Word.wrap a + b) = Word.wrap (a + b) := by
  unfold Word.wrap
  exact Int.bmod_add_bmod

/-- Numbers stay in order when a place is touched. -/
theorem Numbered.touch {base : Int} (h : m.Numbered base) (p : Place) :
    (m.touch p).2.Numbered base := by
  unfold Machine.touch
  split
  · exact h
  · refine ⟨?_, ?_⟩
    · rw [List.map_append, List.length_append, h.numbers, h.last, List.length_singleton,
        List.range_succ, List.map_append, wrap_wrap_add]
      rfl
    · simp only [List.length_append, List.length_singleton]
      rw [h.last, wrap_wrap_add, Int.add_assoc]
      rfl

/-- Numbers stay in order through a step. -/
theorem Numbered.step {base : Int} (h : m.Numbered base) (id : Int) :
    (m.step id).2.Numbered base := by
  cases hact : m.isActive id with
  | false =>
    rw [step_of_not_isActive hact]
    exact h
  | true =>
    obtain ⟨t, ht, hstep⟩ := exists_task_of_isActive hact
    rw [step_eq_perform ht hstep, perform_snd]
    have happly : ((m.effect id t).apply id m).Numbered base := ⟨h.numbers, h.last⟩
    cases (m.effect id t).report.place? with
    | none => exact happly
    | some p => exact happly.touch p

/-- Numbers that are less than a word apart differ. -/
theorem eq_of_wrap_eq {base : Int} {i j : Nat} (hi : i < Word.modulus) (hj : j < Word.modulus)
    (h : Word.wrap (base + i + 1) = Word.wrap (base + j + 1)) : i = j := by
  simp only [Word.wrap, Word.modulus, Int.bmod_def] at h hi hj
  split at h <;> split at h <;> omega

/-- **No two places share a number**, as long as there are not more places than numbers. -/
theorem Numbered.injective {base : Int} (h : m.Numbered base) (hle : m.places.length ≤ Word.modulus)
    {p q : Place} {loc : Location} (hp : m.location? p = some loc) (hq : m.location? q = some loc) :
    p = q := by
  have hindex : ∀ {p : Place}, m.location? p = some loc →
      ∃ i, ∃ hi : i < m.places.length, m.places[i] = (p, loc) ∧ Word.wrap (base + i + 1) = loc := by
    intro p hp
    obtain ⟨before, rest, heq, -⟩ := List.lookup_eq_some_iff.mp hp
    have hmem : (p, loc) ∈ m.places := by
      rw [heq]
      exact List.mem_append_right before List.mem_cons_self
    obtain ⟨i, hi, hget⟩ := List.mem_iff_getElem.mp hmem
    refine ⟨i, hi, hget, ?_⟩
    have hnumber := congrArg (fun l => l[i]?) h.numbers
    simpa [List.getElem?_map, List.getElem?_eq_getElem hi, hget,
      List.getElem?_range hi] using hnumber.symm
  obtain ⟨i, hi, hgeti, hloci⟩ := hindex hp
  obtain ⟨j, hj, hgetj, hlocj⟩ := hindex hq
  have hij : i = j := eq_of_wrap_eq (by omega) (by omega) (hloci.trans hlocj.symm)
  subst hij
  rw [hgeti] at hgetj
  exact (Prod.mk.inj hgetj).1

/-! ### The invariant -/

/-- A task after a step is an old one, the one that has stepped, or the one that was spawned. -/
theorem task?_perform_cases {e : Effect} {other : Int} {u : TaskFrame} (ht : m.task? id = some t)
    (hu : (e.perform id m).2.task? other = some u) :
    (other ≠ id ∧ m.task? other = some u) ∨ (other = id ∧ u = e.frame) ∨
      ∃ thread, e.spawned = some thread ∧ other = m.tasks.length + 1 ∧
        u = .start thread ((m.program.threads.get? thread).getD []) := by
  by_cases hne : other = id
  · subst hne
    rw [task?_perform_self ht] at hu
    exact .inr (.inl ⟨rfl, (Option.some.inj hu).symm⟩)
  obtain ⟨hother, hget⟩ := task?_eq_some.mp hu
  obtain ⟨hid, -⟩ := task?_eq_some.mp ht
  rw [perform_snd, touched_tasks, Effect.apply] at hget
  dsimp only at hget
  rw [List.getElem?_append, List.length_set] at hget
  split at hget
  · rw [List.getElem?_set_ne (by omega)] at hget
    exact .inl ⟨hne, task?_eq_some.mpr ⟨hother, hget⟩⟩
  · rename_i hlen
    cases hspawned : e.spawned with
    | none => simp [hspawned] at hget
    | some thread =>
      rw [hspawned] at hget
      obtain ⟨hlt, hu⟩ := List.getElem?_eq_some_iff.mp hget
      simp only [Option.map_some, Option.toList_some, List.length_singleton] at hlt
      refine .inr (.inr ⟨thread, rfl, by omega, ?_⟩)
      rw [← hu]
      simp

/-- The task that was spawned. -/
theorem task?_perform_spawned {e : Effect} {thread : String} (h : e.spawned = some thread) :
    (e.perform id m).2.task? (m.tasks.length + 1) =
      some (.start thread ((m.program.threads.get? thread).getD [])) := by
  refine task?_eq_some.mpr ⟨by omega, ?_⟩
  rw [perform_snd, touched_tasks, Effect.apply, h]
  simp

/-- Every task is there after a step, and runs the thread that it ran. -/
theorem exists_task?_perform {e : Effect} {other : Int} {u : TaskFrame} (ht : m.task? id = some t)
    (hthread : e.frame.thread = t.thread) (hu : m.task? other = some u) :
    ∃ u', (e.perform id m).2.task? other = some u' ∧ u'.thread = u.thread := by
  by_cases hne : id = other
  · subst hne
    rw [ht] at hu
    cases hu
    exact ⟨e.frame, task?_perform_self ht, hthread⟩
  · exact ⟨u, task?_perform_of_ne (task?_eq_some.mp ht).1 hne hu, rfl⟩

theorem taskIds_perform {e : Effect} :
    (e.perform id m).2.taskIds = m.taskIds ++
    (e.spawned.map fun _ => (m.tasks.length : Int) + 1).toList := by
  unfold taskIds
  rw [perform_snd, touched_tasks, Effect.apply]
  cases e.spawned with
  | none => simp
  | some thread => simp [List.range_succ]

/-- A variable that there is stays. -/
theorem has_memory {e : Effect} {d : Dictionary Value} {name : String} (h : d.has name = true) :
    (e.memory d).has name = true := by
  by_cases hstored : ∃ v, e.stored = some (name, v)
  · obtain ⟨v, hv⟩ := hstored
    rw [Dictionary.has, get?_memory_of_eq hv]
    rfl
  · rw [Dictionary.has, get?_memory_of_ne fun v hv => hstored ⟨v, hv⟩]
    exact h

/-- What every step keeps: the variables, the code, how tasks stand, and their children, who are
those that were seen to start. -/
structure Kept (p : Program) (seen : List Observation) (m : Machine) : Prop where
  program : m.program = p
  memory : ∀ name, p.globals.has name = true → m.memory.has name = true
  code : ∀ id t, m.task? id = some t →
    ∃ ops, p.threads.get? t.thread = some ops ∧ t.code = codeOf ops
  stands : ∀ id t, m.task? id = some t → t.Stands
  children : ∀ id t, m.task? id = some t → ∀ thread target, t.children.get? thread = some target →
    (∃ other, m.task? target = some other ∧ other.thread = thread) ∧
      Observation.threadStart target id ∈ seen
  starts : (startsIn seen).map (·.task) = m.taskIds

/-- A thread that can be spawned has operations. -/
theorem start_of_has {p : Program} {thread : String} (h : p.threads.has thread = true) :
    ∃ ops, p.threads.get? thread = some ops ∧
      TaskFrame.start thread ((p.threads.get? thread).getD []) = .start thread ops := by
  obtain ⟨ops, hops⟩ := Option.isSome_iff_exists.mp h
  exact ⟨ops, hops, by rw [hops]; rfl⟩

theorem kept_reset {p : Program} (hv : p.isValid = true) (n : Int) :
    ((ofProgram p).reset n).2.Kept p ((ofProgram p).reset n).1 := by
  obtain ⟨ops, hops, hstart⟩ := start_of_has (Program.has_mainThread hv)
  have htask : ∀ id t, ((ofProgram p).reset n).2.task? id = some t →
      t = .start Program.mainThread ops := by
    intro id t ht
    rw [← hstart]
    exact List.mem_singleton.mp (List.mem_of_getElem? (task?_eq_some.mp ht).2)
  refine ⟨rfl, fun _ h => h, ?_, ?_, ?_, rfl⟩
  · intro id t ht
    rw [htask id t ht]
    exact ⟨ops, hops, rfl⟩
  · intro id t ht
    rw [htask id t ht]
    exact stands_start _ _
  · intro id t ht thread target hchild
    rw [htask id t ht] at hchild
    simp [TaskFrame.start] at hchild

/-- What the next instruction needs is there. -/
theorem Kept.supports {p : Program} {seen : List Observation} (hv : p.isValid = true)
    (h : m.Kept p seen) (ht : m.task? id = some t) {i : Instruction} (hi : t.next? = some i) :
    p.Supports i := by
  obtain ⟨ops, hops, hcode⟩ := h.code id t ht
  obtain ⟨position, hposition⟩ := exists_position_of_next hi
  rw [hcode] at hposition
  obtain ⟨op, -, -, hsupports⟩ := Program.codeOf_getElem? hv hops hposition
  exact hsupports

/-- **Every step keeps the invariant**, also one that fails. -/
theorem Kept.step {p : Program} {seen : List Observation} (hv : p.isValid = true)
    (h : m.Kept p seen) (id : Int) : (m.step id).2.Kept p (seen ++ m.seenBy id) := by
  cases hact : m.isActive id with
  | false =>
    rw [seenBy_of_not_isActive hact, step_of_not_isActive hact, List.append_nil]
    exact h
  | true =>
    obtain ⟨t, ht, hstep⟩ := exists_task_of_isActive hact
    have hkeeps := keeps_effect m id t
    have hstarts :
        startsIn (((m.effect id t).report.result id fun p => (m.touch p).1).toOption.getD []) =
        ((m.effect id t).spawned.map fun _ =>
          Observation.threadStart (m.tasks.length + 1) id).toList :=
      starts_effect _
    rw [← seenBy_eq ht hstep] at hstarts
    rw [step_eq_perform ht hstep]
    -- a spawned task runs a thread of the program and has just been seen to start
    have hnew : ∀ thread, (m.effect id t).spawned = some thread →
        ∃ ops, p.threads.get? thread = some ops ∧
          TaskFrame.start thread ((m.program.threads.get? thread).getD []) = .start thread ops := by
      intro thread hspawned
      rw [h.program]
      exact start_of_has (h.supports hv ht (next?_of_spawned hspawned)).1
    have hnewSeen : ∀ thread, (m.effect id t).spawned = some thread →
        Observation.threadStart (m.tasks.length + 1) id ∈ m.seenBy id := by
      intro thread hspawned
      have hmem : Observation.threadStart (m.tasks.length + 1) id ∈ startsIn (m.seenBy id) := by
        rw [hstarts, hspawned]
        exact List.mem_singleton_self _
      exact (List.mem_filter.mp hmem).1
    -- a child from before the step
    have hold : ∀ (other : Int) (u : TaskFrame), m.task? other = some u → ∀ thread target,
        u.children.get? thread = some target →
        (∃ child, ((m.effect id t).perform id m).2.task? target = some child ∧
          child.thread = thread) ∧ Observation.threadStart target other ∈ seen ++ m.seenBy id := by
      intro other u hu thread target hchild
      obtain ⟨⟨child, hget, rfl⟩, hseen⟩ := h.children other u hu thread target hchild
      exact ⟨exists_task?_perform ht hkeeps.thread hget, List.mem_append_left _ hseen⟩
    exact
      { program := by
          rw [perform_snd, touched_program]
          exact h.program
        memory := by
          intro name hname
          rw [perform_snd, touched_memory]
          exact has_memory (h.memory name hname)
        code := by
          intro other u hu
          rcases task?_perform_cases ht hu with ⟨-, hu⟩ | ⟨-, rfl⟩ | ⟨thread, hspawned, -, rfl⟩
          · exact h.code other u hu
          · rw [hkeeps.thread, hkeeps.code]
            exact h.code id t ht
          · obtain ⟨ops, hops, heq⟩ := hnew thread hspawned
            rw [heq]
            exact ⟨ops, hops, rfl⟩
        stands := by
          intro other u hu
          rcases task?_perform_cases ht hu with ⟨-, hu⟩ | ⟨-, rfl⟩ | ⟨thread, -, -, rfl⟩
          · exact h.stands other u hu
          · exact stands_effect (h.stands id t ht) hstep
          · exact stands_start _ _
        children := by
          intro other u hu thread target hchild
          rcases task?_perform_cases ht hu with ⟨-, hu⟩ | ⟨rfl, rfl⟩ | ⟨name, -, -, rfl⟩
          · exact hold other u hu thread target hchild
          · rw [hkeeps.children] at hchild
            cases hspawned : (m.effect other t).spawned with
            | none =>
              rw [hspawned] at hchild
              exact hold other t ht thread target hchild
            | some name =>
              rw [hspawned, Option.map_some, Option.getD_some] at hchild
              by_cases hname : thread = name
              · subst hname
                rw [Dictionary.get?_set_self] at hchild
                cases hchild
                exact ⟨⟨_, task?_perform_spawned hspawned, rfl⟩,
                  List.mem_append_right _ (hnewSeen thread hspawned)⟩
              · rw [Dictionary.get?_set_of_ne _ hname] at hchild
                exact hold other t ht thread target hchild
          · simp [TaskFrame.start] at hchild
        starts := by
          rw [taskIds_perform, ← h.starts, startsIn, List.filter_append, List.map_append]
          rw [startsIn] at hstarts
          rw [hstarts]
          cases (m.effect id t).spawned <;> rfl }

theorem Kept.after {p : Program} {seen : List Observation} (hv : p.isValid = true)
    (h : m.Kept p seen) (ids : List Int) : (m.after ids).Kept p (seen ++ m.shown ids) := by
  induction ids generalizing m seen with
  | nil => rwa [shown, List.append_nil]
  | cons id ids ih =>
    rw [shown, ← List.append_assoc]
    exact ih (h.step hv id)

theorem Numbered.after {base : Int} (h : m.Numbered base) (ids : List Int) :
    (m.after ids).Numbered base := by
  induction ids generalizing m with
  | nil => exact h
  | cons id ids ih => exact ih (h.step id)

/-! ### Sound states -/

/-- The variable that an instruction is about. -/
def sharedOf : Instruction → Option String
  | .read shared _ => some shared
  | .write shared _ => some shared
  | .fetchAdd shared _ _ => some shared
  | _ => none

/-- What holds of a machine after some observations. -/
structure IsSound (p : Program) (seen : List Observation) (m : Machine) : Prop where
  /-- The tasks are numbered in the order in which they were seen to start. -/
  starts : (startsIn seen).map (·.task) = m.taskIds
  /-- Every task stands at an operation of its thread or behind the last one, and all of them do
  something. -/
  position : ∀ id t, m.task? id = some t → ∃ ops, p.threads.get? t.thread = some ops ∧
    t.position ≤ ops.length ∧ t.code.map some = ops.map Operation.instruction?
  /-- A task that waits for another one stands at a join of its thread, and has spawned it. -/
  joining : ∀ id t target, m.task? id = some t → t.state = .joining target → ∃ ops op thread other,
    p.threads.get? t.thread = some ops ∧ ops[t.position]? = some op ∧ op.instruction? =
    some (.join thread) ∧
      m.task? target = some other ∧ other.thread = thread ∧ Observation.threadStart target id ∈ seen
  /-- A task that waits for a lock stands at an operation that locks it. -/
  waiting : ∀ id t lock, m.task? id = some t → t.state = .waiting lock → ∃ ops op,
    p.threads.get? t.thread = some ops ∧ ops[t.position]? = some op ∧ op.instruction? =
    some (.lock lock)
  /-- A task that is not active is refused, and nothing changes. -/
  refused : ∀ id, id ∉ m.active → m.step id = (.error (.notActive id), m)
  /-- An active task fails only over an expression, or because it adds opposite infinities. -/
  failing : ∀ id e, id ∈ m.active → (m.step id).1 = .error e →
    ∃ t, m.task? id = some t ∧ m.FailsWell id t e
  /-- The threads and variables that instructions name are there. -/
  available : ∀ id t i, m.task? id = some t → t.next? = some i →
    p.Supports i ∧ ∀ shared, sharedOf i = some shared → m.memory.has shared = true
  /-- The numbers of places identify them. -/
  places : m.places.length ≤ Word.modulus → ∀ a b loc, m.location? a = some loc →
    m.location? b = some loc → a = b

/-- What every step keeps makes a state sound. -/
theorem Kept.isSound {p : Program} {seen : List Observation} {base : Int} (hv : p.isValid = true)
    (h : m.Kept p seen) (hn : m.Numbered base) : m.IsSound p seen where
  starts := h.starts
  position := by
    intro id t ht
    obtain ⟨ops, hops, hcode⟩ := h.code id t ht
    have hle := (h.stands id t ht).position
    rw [hcode, Program.codeOf_length hv hops] at hle
    exact ⟨ops, hops, hle, by rw [hcode]; exact Program.codeOf_map_some_of_valid hv hops⟩
  joining := by
    intro id t target ht hs
    obtain ⟨ops, hops, hcode⟩ := h.code id t ht
    obtain ⟨thread, hi, hchild⟩ := (h.stands id t ht).joining target hs
    rw [hcode] at hi
    obtain ⟨op, hop, hinstruction, -⟩ := Program.codeOf_getElem? hv hops hi
    obtain ⟨⟨other, hother, hthread⟩, hseen⟩ := h.children id t ht thread target hchild
    exact ⟨ops, op, thread, other, hops, hop, hinstruction, hother, hthread, hseen⟩
  waiting := by
    intro id t lock ht hs
    obtain ⟨ops, hops, hcode⟩ := h.code id t ht
    have hi := (h.stands id t ht).waiting lock hs
    rw [hcode] at hi
    obtain ⟨op, hop, hinstruction, -⟩ := Program.codeOf_getElem? hv hops hi
    exact ⟨ops, op, hops, hop, hinstruction⟩
  refused := by
    intro id hid
    refine step_of_not_isActive ?_
    cases hact : m.isActive id with
    | false => rfl
    | true => exact absurd (mem_active_of_isActive hact) hid
  failing := by
    intro id e hid herror
    obtain ⟨t, ht, hstep⟩ := exists_task_of_isActive (List.mem_filter.mp hid).2
    refine ⟨t, ht, fault_effect hstep ?_⟩
    rw [step_eq_perform ht hstep, perform_fst] at herror
    cases hreport : (m.effect id t).report with
    | fault e' =>
      rw [hreport] at herror
      cases herror
      rfl
    | _ =>
      rw [hreport] at herror
      cases herror
  available := by
    intro id t i ht hi
    have hsupports := h.supports hv ht hi
    refine ⟨hsupports, fun shared hshared => h.memory shared ?_⟩
    cases i <;> cases hshared
    · exact hsupports.1
    · exact hsupports
    · exact hsupports
  places := fun hle _ _ _ ha hb => hn.injective hle ha hb

end Machine

namespace Program

open Machine

/-- **Every state that a valid program can come to is sound**, and every lock is taken and given
back in turn, whatever steps the machine is asked for. -/
theorem isSound_after {p : Program} (hv : p.isValid = true) (n : Int) (ids : List Int) :
    (((ofProgram p).reset n).2.after ids).IsSound p
        (((ofProgram p).reset n).1 ++ ((ofProgram p).reset n).2.shown ids) ∧
      ∀ lock, Alternates none (((ofProgram p).reset n).2.turns lock ids) := by
  have hnumbered : ((ofProgram p).reset n).2.Numbered (locationStride * Word.wrap (n + 1)) :=
    ⟨rfl, by simp [reset, spawn]⟩
  refine ⟨((kept_reset hv n).after hv ids).isSound hv (hnumbered.after ids), fun lock => ?_⟩
  exact alternates_turns ((ofProgram p).reset n).2 lock ids

/-- The quotient of two small numbers. -/
def ratio (a b : Int) : Expression :=
  .binary .divide (.literal (.number (.ofInt a))) (.literal (.number (.ofInt b)))

/-- A variable becomes infinite and is then to get an infinity of the other sign added. -/
def opposites : Program :=
  ofInstructions "opposites" ["x"]
    [("main", [.fetchAdd "x" "" (ratio 1 0), .fetchAdd "x" "" (ratio (-1) 0)])]

/-- The states of `Interleaving.Program.opposites` are sound, up to the one in which it breaks
down. -/
theorem opposites_isSound :
    opposites.isValid = true ∧
      (((ofProgram opposites).reset 0).2.after [1, 1]).IsSound opposites
        (((ofProgram opposites).reset 0).1 ++ ((ofProgram opposites).reset 0).2.shown [1, 1]) :=
  ⟨by decide +kernel, (isSound_after (by decide +kernel) 0 [1, 1]).1⟩

/-- **An active task can fail otherwise than over an expression.** The second step of
`Interleaving.Program.opposites` breaks down. -/
theorem breaks_down :
    ¬ ∀ (p : Program) (n : Int) (ids : List Int) (id : Int) (e : Machine.Error), p.isValid = true →
      id ∈ (((ofProgram p).reset n).2.after ids).active →
      ((((ofProgram p).reset n).2.after ids).step id).1 = .error e →
      ∃ thread fault, e = .evaluation id thread fault ∧ ∀ cause, fault ≠ .breakdown cause := by
  intro h
  have hstep : ((((ofProgram opposites).reset 0).2.after [1]).step 1).1 =
      .error (.evaluation 1 "main" (.breakdown .sum)) := by rfl
  obtain ⟨thread, fault, heq, hne⟩ :=
    h opposites 0 [1] 1 _ (by decide +kernel) (by decide +kernel) hstep
  cases heq
  exact hne .sum rfl

end Program

end Interleaving
