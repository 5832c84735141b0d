import Interleaving.Proofs.Before
import Interleaving.Proofs.Machine.Commuting
import Interleaving.Proofs.Machine.Invariant

/-!
# Moves

A **move** (`Interleaving.Machine.Move`) is what a task does from one rest to the next. It is one
step, except that a task which joins another one asks in a first step and goes on in a second one,
and that a task which finds a lock taken attempts it first. So a move takes a lock only while it is
free, and it joins only a task that has finished.

What a move does depends on the variable or lock that it is about, on the number of tasks if it
spawns one, and on the task that it joins (`Interleaving.Machine.CanMove.congr`). Two moves that
have nothing to do with each other may change places (`Interleaving.Machine.CanMove.swap`). So
**moves can be made in every order that keeps apart what conflicts**, and all these orders lead to
the same state (`Interleaving.Machine.Plays.reorder`).
-/

namespace Interleaving

namespace Machine

variable {m m' : Machine} {id target : Int} {t : TaskFrame} {i : Instruction} {name lock : String}

/-! ### Tasks at rest -/

/-- A task that has passed the assertions in front of it. -/
def TaskFrame.rest (t : TaskFrame) : TaskFrame :=
  match t.assertions with
  | .passed position => { t with position }
  | _ => t

/-- A task that waits neither for another one nor for a lock. -/
structure TaskFrame.AtRest (t : TaskFrame) : Prop where
  not_joining : ∀ target, t.state ≠ .joining target
  not_waiting : ∀ lock, t.state ≠ .waiting lock

theorem TaskFrame.AtRest.of_ready (h : t.state = .ready) : t.AtRest := ⟨by simp [h], by simp [h]⟩

/-- The task that a task is about to join. -/
def TaskFrame.joins? (t : TaskFrame) : Option Int :=
  match t.next? with
  | some (.join thread) => t.children.get? thread
  | _ => none

/-- What a task does until it rests again. -/
def settle (m : Machine) (id : Int) (t : TaskFrame) : Effect :=
  match t.joins? with
  | some target => { report := .shows (.threadJoin id target), frame := t.rest.advance }
  | none => m.effect id t

theorem TaskFrame.state_rest (t : TaskFrame) : t.rest.state = t.state := by
  unfold TaskFrame.rest
  split <;> rfl

/-- A task that is ready has an instruction in front of it, or it has passed all of them, or an
assertion stops it. -/
theorem TaskFrame.next?_of_ready (hready : t.state = .ready) :
    t.next? = match t.assertions with | .passed position => t.code[position]? | _ => none := by
  unfold TaskFrame.next?
  rw [hready]
  cases t.assertions <;> rfl

theorem effect_of_ready (hready : t.state = .ready) : m.effect id t = m.effectReady id t := by
  unfold effect
  rw [hready]

/-- The instruction in front of a task that is ready. -/
theorem exists_passed_of_next (hready : t.state = .ready) (hi : t.next? = some i) :
    ∃ position, t.assertions = .passed position ∧ t.code[position]? = some i ∧
      t.rest = { t with position } := by
  rw [TaskFrame.next?_of_ready hready] at hi
  unfold TaskFrame.rest
  cases hpassed : t.assertions with
  | passed position =>
    rw [hpassed] at hi
    exact ⟨position, rfl, hi, rfl⟩
  | _ =>
    rw [hpassed] at hi
    cases hi

/-- A task that is ready carries out the instruction in front of it. -/
theorem effect_of_next (hready : t.state = .ready) (hi : t.next? = some i) :
    m.effect id t = m.effectOf id t.rest i := by
  obtain ⟨position, hpassed, hcode, hrest⟩ := exists_passed_of_next hready hi
  rw [effect_of_ready hready, effectReady, hpassed, hrest]
  dsimp only
  rw [hcode]

theorem next?_of_joins (h : t.joins? = some target) :
    ∃ thread, t.next? = some (.join thread) ∧ t.children.get? thread = some target := by
  unfold TaskFrame.joins? at h
  split at h
  · exact ⟨_, ‹_›, h⟩
  · cases h

theorem settle_of_joins (h : t.joins? = some target) :
    m.settle id t = { report := .shows (.threadJoin id target), frame := t.rest.advance } := by
  rw [settle, h]

theorem settle_of_not_joins (h : t.joins? = none) : m.settle id t = m.effect id t := by
  rw [settle, h]

/-! ### What moves do -/

/-- **The effects of moves.** -/
inductive Effect.IsMove (id : Int) : Effect → Prop
  | read (name : String) {frame : TaskFrame} (ready : frame.state = .ready) :
      IsMove id { report := .accesses .read (.shared name), frame }
  | write (name : String) (v : Value) {frame : TaskFrame} (ready : frame.state = .ready) :
      IsMove id { report := .accesses .write (.shared name), frame, stored := some (name, v) }
  | update (name : String) (v : Value) {frame : TaskFrame} (ready : frame.state = .ready) :
      IsMove id
        { report := .accesses .readModifyWrite (.shared name), frame, stored := some (name, v) }
  | acquire (lock : String) {frame : TaskFrame} (ready : frame.state = .ready) :
      IsMove id
        { report := .accesses .lockAcquire (.lock lock), frame, turned := some (lock, some id) }
  | release (lock : String) {frame : TaskFrame} (ready : frame.state = .ready) :
      IsMove id
        { report := .accesses .lockRelease (.lock lock), frame, turned := some (lock, none) }
  | spawn (child : Int) (thread : String) {frame : TaskFrame} (ready : frame.state = .ready) :
      IsMove id { report := .shows (.threadStart child id), frame, spawned := some thread }
  | join (target : Int) {frame : TaskFrame} (ready : frame.state = .ready) :
      IsMove id { report := .shows (.threadJoin id target), frame }
  | assume (holds : Bool) {frame : TaskFrame}
      (state : frame.state = if holds then .ready else .parked) :
      IsMove id { report := .shows (.assume id holds), frame }
  | finish {frame : TaskFrame} (finished : frame.state = .finished) :
      IsMove id { report := .shows (.threadFinish id), frame }

/-- Whether a step changes the place that it is about. -/
def Report.alters : Report → Bool
  | .accesses kind _ => kind != .read
  | _ => false

namespace Effect.IsMove

variable {e : Effect} (h : e.IsMove id)
include h

/-- Only the variable that a move is about gets a value. -/
theorem place?_of_stored {v : Value} (hstored : e.stored = some (name, v)) :
    e.report.place? = some (.shared name) ∧ e.report.alters = true := by
  cases h <;> cases hstored <;> exact ⟨rfl, rfl⟩

/-- Only the lock that a move is about is taken or given back. -/
theorem place?_of_turned {holder : Option Int} (hturned : e.turned = some (lock, holder)) :
    e.report.place? = some (.lock lock) ∧ e.report.alters = true := by
  cases h <;> cases hturned <;> exact ⟨rfl, rfl⟩

/-- No move leaves a task waiting. -/
theorem atRest : e.frame.AtRest := by
  cases h with
  | finish finished => exact ⟨by simp [finished], by simp [finished]⟩
  | @assume holds frame state => cases holds <;> exact ⟨by simp [state], by simp [state]⟩
  | _ => exact .of_ready ‹_›

/-- No move shows an error of the program. -/
theorem not_failure {o : Observation} (ho : e.report = .shows o) : o.kind ≠ .assertFailure := by
  cases h <;> cases ho <;> exact fun heq => by cases heq

/-- A move fails in no way. -/
theorem not_fault (error : Error) : e.report ≠ .fault error := by
  cases h <;> simp

end Effect.IsMove

/-- **What a task does that is ready is a move**, unless the program fails or a lock is taken. -/
theorem isMove_settle (hready : t.state = .ready) (hfault : ∀ e, (m.settle id t).report ≠ .fault e)
    (hfailure : ∀ o, (m.settle id t).report = .shows o → o.kind ≠ .assertFailure)
    (hfree : ∀ lock, t.next? = some (.lock lock) → m.holders.has lock = false) :
    (m.settle id t).IsMove id := by
  have hrest : t.rest.state = .ready := t.state_rest.trans hready
  cases hjoins : t.joins? with
  | some target =>
    rw [settle_of_joins hjoins]
    exact .join target hrest
  | none =>
    rw [settle_of_not_joins hjoins] at hfault hfailure ⊢
    cases hnext : t.next? with
    | none =>
      rw [TaskFrame.next?_of_ready hready] at hnext
      rw [effect_of_ready hready, effectReady] at hfault hfailure ⊢
      cases hpassed : t.assertions with
      | fault position cause =>
        rw [hpassed] at hfault
        exact absurd rfl (hfault _)
      | failed position message =>
        rw [hpassed] at hfailure
        exact absurd rfl (hfailure _ rfl)
      | passed position =>
        rw [hpassed] at hnext
        dsimp only at hnext ⊢
        rw [hnext]
        exact .finish rfl
    | some i =>
      rw [effect_of_next hready hnext] at hfault hfailure ⊢
      cases i with
      | read shared into => exact .read shared hrest
      | write shared value =>
        simp only [effectOf] at hfault ⊢
        split
        · rename_i cause hv
          rw [hv] at hfault
          exact absurd rfl (hfault _)
        · exact .write shared _ hrest
      | fetchAdd shared into value =>
        simp only [effectOf] at hfault ⊢
        split
        · rename_i cause hv
          simp only [hv] at hfault
          exact absurd rfl (hfault _)
        · rename_i delta hv
          simp only [hv] at hfault
          split
          · rename_i n hold
            simp only [hold] at hfault
            split
            · rename_i cause hsum
              simp only [hsum] at hfault
              exact absurd rfl (hfault _)
            · refine .update shared _ ?_
              split <;> exact hrest
          · rename_i hold
            split at hfault
            · rename_i n hn
              exact absurd hn (hold n)
            · exact absurd rfl (hfault _)
      | lock name =>
        simp only [effectOf, hfree name hnext]
        exact .acquire name hrest
      | unlock name =>
        simp only [effectOf] at hfailure ⊢
        split
        · exact .release name hrest
        · rename_i hheld
          rw [if_neg hheld] at hfailure
          exact absurd rfl (hfailure _ rfl)
      | spawn thread => exact .spawn _ thread hrest
      | join thread =>
        -- a child would be waited for, so there is none, and the join fails
        have hchild : t.rest.children.get? thread = none := by
          rw [TaskFrame.joins?, hnext] at hjoins
          obtain ⟨position, -, -, heq⟩ := exists_passed_of_next hready hnext
          rw [heq]
          exact hjoins
        simp only [effectOf, hchild] at hfailure
        exact absurd rfl (hfailure _ rfl)
      | assume condition =>
        simp only [effectOf] at hfault ⊢
        split
        · rename_i cause hv
          rw [hv] at hfault
          exact absurd rfl (hfault _)
        · rename_i holds hv
          refine .assume holds ?_
          cases holds
          · rfl
          · exact hrest
      | assert condition message =>
        -- assertions are passed on the way to the next instruction, so it is none
        obtain ⟨position, hpassed, hcode, -⟩ := exists_passed_of_next hready hnext
        obtain ⟨hle, hne⟩ := TaskFrame.assertionsFrom_passed hpassed
        refine absurd ?_ (hne condition message)
        rw [List.getElem?_drop, Nat.add_sub_cancel' hle, hcode]

/-! ### What a move depends on -/

/-- A task that is about a variable makes a move on it. -/
theorem place?_of_cell? (hready : t.state = .ready)
    (hmove : (m.effect id t).IsMove id) (h : t.cell? = some name) :
    (m.effect id t).report.place? = some (.shared name) := by
  unfold TaskFrame.cell? at h
  cases hnext : t.next? with
  | none =>
    rw [hnext] at h
    cases h
  | some i =>
    rw [hnext] at h
    rw [effect_of_next hready hnext] at hmove ⊢
    cases i with
    | read shared into =>
      cases h
      rfl
    | write shared value =>
      dsimp only at h
      split at h
      · cases h
        simp only [effectOf] at hmove ⊢
        split
        · rename_i cause hv
          rw [hv] at hmove
          exact absurd rfl (hmove.not_fault _)
        · rfl
      · cases h
    | fetchAdd shared into value =>
      dsimp only at h
      split at h
      · cases h
        simp only [effectOf] at hmove ⊢
        split
        · rename_i cause hv
          simp only [hv] at hmove
          exact absurd rfl (hmove.not_fault _)
        · rename_i delta hv
          simp only [hv] at hmove
          split
          · rename_i n hold
            simp only [hold] at hmove
            split
            · rename_i cause hsum
              simp only [hsum] at hmove
              exact absurd rfl (hmove.not_fault _)
            · rfl
          · rename_i hold
            split at hmove
            · rename_i n hn
              exact absurd hn (hold n)
            · exact absurd rfl (hmove.not_fault _)
      · cases h
    | _ => cases h

/-- A task that is about a lock makes a move on it. -/
theorem place?_of_lock? (hready : t.state = .ready)
    (hmove : (m.effect id t).IsMove id) (h : t.lock? = some lock) :
    (m.effect id t).report.place? = some (.lock lock) := by
  have hnot := fun o => hmove.not_failure (o := o)
  have hnext : t.next?.bind lockOf = some lock := by
    unfold TaskFrame.lock? at h
    rwa [hready] at h
  obtain ⟨i, hi, hlock⟩ := Option.bind_eq_some_iff.mp hnext
  rw [effect_of_next hready hi] at hnot ⊢
  cases i with
  | lock name =>
    cases hlock
    simp only [effectOf]
    split <;> rfl
  | unlock name =>
    cases hlock
    simp only [effectOf] at hnot ⊢
    split
    · rfl
    · rename_i hheld
      rw [if_neg hheld] at hnot
      exact absurd rfl (hnot _ rfl)
  | _ => cases hlock

/-- A task that is about to spawn another one does so. -/
theorem spawned_of_spawns (hready : t.state = .ready) (h : t.spawns = true) :
    (m.effect id t).spawned.isSome = true := by
  unfold TaskFrame.spawns at h
  split at h
  · rename_i thread hnext
    rw [effect_of_next hready hnext]
    rfl
  · cases h

/-- **What a move depends on**: the variable or lock that it is about, and the number of tasks if it
spawns one. -/
theorem settle_congr (hready : t.state = .ready) (hmove : (m.settle id t).IsMove id)
    (hmemory : ∀ name, (m.settle id t).report.place? = some (.shared name) →
      m'.memory.get? name = m.memory.get? name)
    (hholders : ∀ lock, (m.settle id t).report.place? = some (.lock lock) →
      m'.holders.get? lock = m.holders.get? lock)
    (hcount : (m.settle id t).spawned.isSome = true → m'.tasks.length = m.tasks.length) :
    m'.settle id t = m.settle id t := by
  cases hjoins : t.joins? with
  | some target => rw [settle_of_joins hjoins, settle_of_joins hjoins]
  | none =>
    rw [settle_of_not_joins hjoins] at hmove hmemory hholders hcount
    rw [settle_of_not_joins hjoins, settle_of_not_joins hjoins]
    exact effect_congr (fun name hname => hmemory name (place?_of_cell? hready hmove hname))
      (fun lock hlock => hholders lock (place?_of_lock? hready hmove hlock))
      fun hspawns => hcount (spawned_of_spawns hready hspawns)

/-! ### Moves of machines -/

/-- **A move** of a task, with the key under which its first event is known. -/
structure Move where
  task : Int
  /-- The task before the move. -/
  frame : TaskFrame
  effect : Effect
  key : Key

variable {x y : Move} {xs ys : List Move}

/-- The machine after a move. -/
def Move.after (x : Move) (m : Machine) : Machine := (x.effect.perform x.task m).2

/-- **A move that a machine can make.** The first event of a move that spawns a task is one of the
new task. -/
structure CanMove (m : Machine) (x : Move) : Prop where
  task : m.task? x.task = some x.frame
  ready : x.frame.state = .ready
  settles : m.settle x.task x.frame = x.effect
  move : x.effect.IsMove x.task
  joined : ∀ target, x.frame.joins? = some target →
    ∃ other, m.task? target = some other ∧ other.state = .finished
  key : x.key.task + 1 = if x.effect.spawned.isSome then (m.tasks.length : Int) + 1 else x.task

/-- **Moves that conflict**: of one task, of a task and one that it has started or that joins it,
two that spawn tasks, and two on a place that one of them changes. -/
inductive Move.Conflicts (x y : Move) : Prop
  | task (h : x.task = y.task)
  | starts (h : x.key.task + 1 = y.task)
  | joins (h : y.frame.joins? = some x.task)
  | spawns (hx : x.effect.spawned.isSome = true) (hy : y.effect.spawned.isSome = true)
  | place {p : Place} (hx : x.effect.report.place? = some p) (hy : y.effect.report.place? = some p)
      (h : x.effect.report.alters = true ∨ y.effect.report.alters = true)

namespace CanMove

/-- A machine in which nothing has changed that a move depends on. -/
theorem congr (h : m.CanMove x) (htask : m'.task? x.task = some x.frame)
    (hmemory : ∀ name, x.effect.report.place? = some (.shared name) →
      m'.memory.get? name = m.memory.get? name)
    (hholders : ∀ lock, x.effect.report.place? = some (.lock lock) →
      m'.holders.get? lock = m.holders.get? lock)
    (hcount : x.effect.spawned.isSome = true → m'.tasks.length = m.tasks.length)
    (hjoined : ∀ target, x.frame.joins? = some target →
      ∃ other, m'.task? target = some other ∧ other.state = .finished) : m'.CanMove x where
  task := htask
  ready := h.ready
  settles := by
    have hsettles := h.settles
    refine (settle_congr h.ready ?_ ?_ ?_ ?_).trans hsettles
    all_goals rw [hsettles]
    · exact h.move
    · exact hmemory
    · exact hholders
    · exact hcount
  move := h.move
  joined := hjoined
  key := by
    rw [h.key]
    split
    · rename_i hspawned
      rw [hcount hspawned]
    · rfl

variable (h : m.CanMove x)
include h

theorem one_le : 1 ≤ x.task := (task?_eq_some.mp h.task).1

theorem lt_length : (x.task - 1).toNat < m.tasks.length :=
  (List.getElem?_eq_some_iff.mp (task?_eq_some.mp h.task).2).1

/-- A move leaves all other tasks alone. -/
theorem task?_after {u : Int} {f : TaskFrame} (hne : u ≠ x.task) (hu : m.task? u = some f) :
    (x.after m).task? u = some f :=
  task?_perform_of_ne h.one_le (Ne.symm hne) hu

/-- A move leaves all variables alone that it does not change. -/
theorem memory_after (hplace : x.effect.report.place? = some (.shared name) →
    x.effect.report.alters = false) : (x.after m).memory.get? name = m.memory.get? name := by
  rw [Move.after, perform_snd, touched_memory, Effect.apply]
  refine get?_memory_of_ne (fun v hstored => ?_) m.memory
  obtain ⟨hself, halters⟩ := h.move.place?_of_stored hstored
  rw [hplace hself] at halters
  cases halters

/-- A move leaves all locks alone that it does not change. -/
theorem holders_after
    (hplace : x.effect.report.place? = some (.lock lock) → x.effect.report.alters = false) :
    (x.after m).holders.get? lock = m.holders.get? lock := by
  rw [Move.after, perform_snd, touched_holders, Effect.apply]
  refine get?_holders_of_ne (fun holder hturned => ?_) m.holders
  obtain ⟨hself, halters⟩ := h.move.place?_of_turned hturned
  rw [hplace hself] at halters
  cases halters

omit h in
/-- Only a move that spawns a task adds one. -/
theorem length_after (x : Move) (m : Machine) :
    (x.after m).tasks.length = m.tasks.length + if x.effect.spawned.isSome then 1 else 0 := by
  rw [Move.after, perform_snd, touched_tasks, Effect.apply]
  cases x.effect.spawned <;> simp

/-- A move changes the task that makes it, and it may start another one. -/
theorem task?_cases {u : Int} {f : TaskFrame} (hu : (x.after m).task? u = some f) :
    u ≠ x.task ∧ m.task? u = some f ∨ u = x.task ∧ f = x.effect.frame ∨
    u = x.key.task + 1 ∧ f.state = .ready := by
  rcases task?_perform_cases h.task hu with hold | hself | ⟨thread, hspawned, hnew, rfl⟩
  · exact Or.inl hold
  · exact Or.inr (Or.inl hself)
  · refine Or.inr (Or.inr ⟨?_, rfl⟩)
    rw [h.key, hspawned]
    exact hnew

end CanMove

/-! ### Changing places -/

section Swap

variable (hx : m.CanMove x) (hy : (x.after m).CanMove y) (h : ¬x.Conflicts y)
include hx hy h

/-- The second of two moves that do not conflict can be made at once. -/
theorem CanMove.earlier : m.CanMove y := by
  have hplace : ∀ {p}, y.effect.report.place? = some p → x.effect.report.place? = some p →
      x.effect.report.alters = false := fun hp hp' =>
    Bool.eq_false_iff.mpr fun halters => h (.place hp' hp (Or.inl halters))
  refine hy.congr ?_ (fun name hname => (hx.memory_after (hplace hname)).symm)
    (fun lock hlock => (hx.holders_after (hplace hlock)).symm) (fun hspawned => ?_)
    fun target htarget => ?_
  · rcases hx.task?_cases hy.task with ⟨-, hold⟩ | ⟨heq, -⟩ | ⟨heq, -⟩
    · exact hold
    · exact absurd (.task heq.symm) h
    · exact absurd (.starts heq.symm) h
  · rw [CanMove.length_after, if_neg fun hspawned' => h (.spawns hspawned' hspawned), Nat.add_zero]
  · obtain ⟨other, hother, hfinished⟩ := hy.joined target htarget
    rcases hx.task?_cases hother with ⟨-, hold⟩ | ⟨rfl, -⟩ | ⟨-, hready⟩
    · exact ⟨other, hold, hfinished⟩
    · exact absurd (.joins htarget) h
    · rw [hready] at hfinished
      cases hfinished

/-- The first of two moves that do not conflict can be made after the second one. -/
theorem CanMove.later : (y.after m).CanMove x := by
  have hearly := hx.earlier hy h
  have hplace : ∀ {p}, x.effect.report.place? = some p → y.effect.report.place? = some p →
      y.effect.report.alters = false := fun hp hp' =>
    Bool.eq_false_iff.mpr fun halters => h (.place hp hp' (Or.inr halters))
  refine hx.congr (hearly.task?_after (fun heq => h (.task heq)) hx.task)
    (fun name hname => hearly.memory_after (hplace hname))
    (fun lock hlock => hearly.holders_after (hplace hlock)) (fun hspawned => ?_)
    fun target htarget => ?_
  · rw [CanMove.length_after, if_neg fun hspawned' => h (.spawns hspawned hspawned'), Nat.add_zero]
  · obtain ⟨other, hother, hfinished⟩ := hx.joined target htarget
    refine ⟨other, hearly.task?_after (fun heq => ?_) hother, hfinished⟩
    -- a task that has finished makes no move
    rw [heq, hearly.task, Option.some_inj] at hother
    rw [← hother, hearly.ready] at hfinished
    cases hfinished

/-- Both orders of two moves that do not conflict lead to the same state. -/
theorem CanMove.agrees : Agrees (y.after (x.after m)) (x.after (y.after m)) := by
  have hearly := hx.earlier hy h
  have hdisjoint : ∀ {p}, x.effect.report.place? = some p → y.effect.report.place? = some p →
      x.effect.report.alters = true → False :=
        fun hp hp' halters => h (.place hp hp' (Or.inl halters))
  simp only [Move.after, perform_snd]
  refine ⟨by simp [Effect.apply], ?_, fun name => ?_, fun lock => ?_⟩
  · simp only [touched_tasks, Effect.apply, touched_program]
    refine set_append_comm ?_ hearly.lt_length hx.lt_length ?_
    · have hne : x.task ≠ y.task := fun heq => h (.task heq)
      have := hx.one_le
      have := hearly.one_le
      omega
    · cases hsy : y.effect.spawned with
      | none => exact Or.inl rfl
      | some thread =>
        cases hsx : x.effect.spawned with
        | none => exact Or.inr rfl
        | some thread' => exact absurd (.spawns (by rw [hsx]; rfl) (by rw [hsy]; rfl)) h
  · simp only [touched_memory, Effect.apply]
    refine get?_memory_comm (fun name v w hy' hx' => ?_) m.memory name
    obtain ⟨hp, halters⟩ := hx.move.place?_of_stored hx'
    exact hdisjoint hp (hy.move.place?_of_stored hy').1 halters
  · simp only [touched_holders, Effect.apply]
    refine get?_holders_comm (fun lock v w hy' hx' => ?_) m.holders lock
    obtain ⟨hp, halters⟩ := hx.move.place?_of_turned hx'
    exact hdisjoint hp (hy.move.place?_of_turned hy').1 halters

end Swap

/-! ### Machines in the same state -/

theorem Agrees.refl (m : Machine) : Agrees m m := ⟨rfl, rfl, fun _ => rfl, fun _ => rfl⟩

theorem Agrees.trans {m'' : Machine} (h : Agrees m m') (h' : Agrees m' m'') : Agrees m m'' :=
  ⟨h'.program.trans h.program, h'.tasks.trans h.tasks,
    fun name => (h'.memory name).trans (h.memory name),
    fun lock => (h'.holders lock).trans (h.holders lock)⟩

theorem Agrees.task? (h : Agrees m m') (u : Int) : m'.task? u = m.task? u := by
  rw [Machine.task?, Machine.task?, h.tasks]

/-- Machines in the same state can make the same moves. -/
theorem Agrees.canMove (h : Agrees m m') (hx : m.CanMove x) : m'.CanMove x :=
  hx.congr ((h.task? _).trans hx.task) (fun name _ => h.memory name) (fun lock _ => h.holders lock)
    (fun _ => by rw [h.tasks]) fun target htarget => by
      obtain ⟨other, hother, hfinished⟩ := hx.joined target htarget
      exact ⟨other, (h.task? _).trans hother, hfinished⟩

theorem Effect.get?_memory_congr {e : Effect} {d d' : Dictionary Value}
    (h : d'.get? name = d.get? name) : (e.memory d').get? name = (e.memory d).get? name := by
  by_cases hstored : ∃ v, e.stored = some (name, v)
  · obtain ⟨v, hv⟩ := hstored
    rw [get?_memory_of_eq hv, get?_memory_of_eq hv]
  · have hnot : ∀ v, e.stored ≠ some (name, v) := fun v hv => hstored ⟨v, hv⟩
    rw [get?_memory_of_ne hnot, get?_memory_of_ne hnot, h]

theorem Effect.get?_holders_congr {e : Effect} {d d' : Dictionary Int}
    (h : d'.get? lock = d.get? lock) : (e.holders d').get? lock = (e.holders d).get? lock := by
  by_cases hturned : ∃ holder, e.turned = some (lock, holder)
  · obtain ⟨holder, hv⟩ := hturned
    rw [get?_holders_of_eq hv, get?_holders_of_eq hv]
  · have hnot : ∀ holder, e.turned ≠ some (lock, holder) := fun holder hv => hturned ⟨holder, hv⟩
    rw [get?_holders_of_ne hnot, get?_holders_of_ne hnot, h]

/-- A move leads from machines in the same state to machines in the same state. -/
theorem Agrees.after (h : Agrees m m') (x : Move) : Agrees (x.after m) (x.after m') := by
  simp only [Move.after, perform_snd]
  refine ⟨by simpa [Effect.apply] using h.program, ?_, fun name => ?_, fun lock => ?_⟩
  · simp only [touched_tasks, Effect.apply, h.tasks, h.program]
  · simp only [touched_memory, Effect.apply]
    exact Effect.get?_memory_congr (h.memory name)
  · simp only [touched_holders, Effect.apply]
    exact Effect.get?_holders_congr (h.holders lock)

/-! ### Sequences of moves -/

/-- The machine after some moves. -/
def play (m : Machine) (xs : List Move) : Machine := xs.foldl (fun m x => x.after m) m

/-- Moves that can be made one after the other. -/
def Plays (m : Machine) : List Move → Prop
  | [] => True
  | x :: xs => m.CanMove x ∧ (x.after m).Plays xs

theorem play_append (m : Machine) (xs ys : List Move) : m.play (xs ++ ys) = (m.play xs).play ys :=
  List.foldl_append ..

theorem plays_append : m.Plays (xs ++ ys) ↔ m.Plays xs ∧ (m.play xs).Plays ys := by
  induction xs generalizing m with
  | nil => simp [Plays, play]
  | cons x xs ih =>
    rw [List.cons_append, Plays, Plays, ih, and_assoc]
    rfl

theorem plays_concat : m.Plays (xs ++ [x]) ↔ m.Plays xs ∧ (m.play xs).CanMove x := by
  rw [plays_append, Plays, Plays, and_true]

theorem Agrees.plays (h : Agrees m m') (hplays : m.Plays xs) :
    m'.Plays xs ∧ Agrees (m.play xs) (m'.play xs) := by
  induction xs generalizing m m' with
  | nil => exact ⟨trivial, h⟩
  | cons x xs ih =>
    obtain ⟨hx, hrest⟩ := hplays
    obtain ⟨hrest', hagrees⟩ := ih (h.after x) hrest
    exact ⟨⟨h.canMove hx, hrest'⟩, hagrees⟩

/-- **A move that conflicts with none of those before it can be made first.** -/
theorem Plays.advance (h : m.Plays (xs ++ y :: ys)) (hnot : ∀ x ∈ xs, ¬x.Conflicts y) :
    m.CanMove y ∧ (y.after m).Plays (xs ++ ys) ∧
    Agrees (m.play (xs ++ y :: ys)) ((y.after m).play (xs ++ ys)) := by
  induction xs generalizing m with
  | nil => exact ⟨h.1, h.2, .refl _⟩
  | cons x xs ih =>
    obtain ⟨hx, hrest⟩ := h
    obtain ⟨hy, hplays, hagrees⟩ := ih hrest fun x' hx' => hnot x' (List.mem_cons_of_mem x hx')
    have hfree := hnot x List.mem_cons_self
    obtain ⟨hplays', hagrees'⟩ := (hx.agrees hy hfree).plays hplays
    exact ⟨hx.earlier hy hfree, ⟨hx.later hy hfree, hplays'⟩, hagrees.trans hagrees'⟩

/-- **Moves can be made in every order that keeps conflicting ones in order**, and it leads to the
same state. -/
theorem Plays.reorder (h : m.Plays xs) (hperm : ys.Perm xs) (hnodup : (xs.map Move.key).Nodup)
    (horder : ∀ x ∈ xs, ∀ y ∈ xs, x.Conflicts y → Before (xs.map Move.key) x.key y.key →
      Before (ys.map Move.key) x.key y.key) : m.Plays ys ∧ Agrees (m.play xs) (m.play ys) := by
  induction ys generalizing m xs with
  | nil =>
    obtain rfl := hperm.nil_eq
    exact ⟨trivial, .refl _⟩
  | cons y ys ih =>
    obtain ⟨xs₁, xs₂, rfl⟩ := List.append_of_mem (hperm.mem_iff.mp List.mem_cons_self)
    have hperm' : ys.Perm (xs₁ ++ xs₂) := (hperm.trans List.perm_middle).cons_inv
    have hkeys : ((y :: (xs₁ ++ xs₂)).map Move.key).Nodup :=
      ((List.perm_middle.map Move.key).nodup_iff).mp hnodup
    rw [List.map_cons, List.nodup_cons] at hkeys
    have hsub : ∀ x ∈ xs₁ ++ xs₂, x ∈ xs₁ ++ y :: xs₂ ∧ x.key ≠ y.key := fun x hx =>
      ⟨List.perm_middle.mem_iff.mpr (List.mem_cons_of_mem y hx),
        fun heq => hkeys.1 (heq ▸ List.mem_map_of_mem hx)⟩
    have hfirst : ∀ x ∈ xs₁, ¬x.Conflicts y := by
      intro x hx hconflict
      have hmem := hsub x (List.mem_append_left xs₂ hx)
      have hbefore : Before ((xs₁ ++ y :: xs₂).map Move.key) x.key y.key := by
        rw [List.map_append, List.map_cons, before_append]
        refine Or.inr ⟨fun hy => hkeys.1 ?_, Or.inl ⟨List.mem_map_of_mem hx, List.mem_cons_self⟩⟩
        rw [List.map_append]
        exact List.mem_append_left _ hy
      have hlater := horder x hmem.1 y (by simp) hconflict hbefore
      rw [List.map_cons, before_cons] at hlater
      exact hlater.1 rfl
    obtain ⟨hy, hplays, hagrees⟩ := h.advance hfirst
    obtain ⟨hplays', hagrees'⟩ := ih hplays hperm' hkeys.2 fun x hx z hz hconflict hbefore => by
      obtain ⟨hx', hxy⟩ := hsub x hx
      obtain ⟨hz', hzy⟩ := hsub z hz
      have hwhole : Before ((xs₁ ++ y :: xs₂).map Move.key) x.key z.key := by
        rw [List.map_append, before_append] at hbefore
        rw [List.map_append, List.map_cons, before_append, before_cons]
        rcases hbefore with hbefore | ⟨hz₁, ⟨hx₁, hz₂⟩ | ⟨hx₁, hbefore⟩⟩
        · exact Or.inl hbefore
        · exact Or.inr ⟨hz₁, Or.inl ⟨hx₁, List.mem_cons_of_mem _ hz₂⟩⟩
        · exact Or.inr ⟨hz₁, Or.inr ⟨hx₁, hzy, Or.inr ⟨hxy, hbefore⟩⟩⟩
      have hlater := horder x hx' z hz' hconflict hwhole
      rw [List.map_cons, before_cons] at hlater
      exact (hlater.2.resolve_left fun heq => hxy heq.1).2
    exact ⟨⟨hy, hplays'⟩, hagrees.trans hagrees'⟩

end Machine

end Interleaving
