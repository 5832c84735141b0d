import Interleaving.Proofs.Machine.History
import Interleaving.Proofs.Machine.Moves

/-!
# Runs as moves

Every run of a machine without errors comes down to moves: **what the machine has done are moves of
a machine whose tasks are at rest** (`Interleaving.Machine.Rests`), and a task of the one stands
like that of the other, except that it may wait already for the task that it is about to join or for
the lock that it is about to take (`Interleaving.Machine.TaskFrame.Lingers`). The steps in which
tasks start to wait show no events (`Interleaving.Machine.Rests.step`).

The other way round every sequence of moves is a run (`Interleaving.Machine.Plays.follow?`).
-/

namespace Interleaving

namespace Machine

variable {m m' m₀ : Machine} {id target : Int} {t t₀ f : TaskFrame} {e e' : Effect} {x : Move}
  {xs : List Move} {seen : List Observation}

/-! ### Waiting tasks -/

/-- **How a task may stand that was at rest**: it may have started to wait. Its registers and its
code are the same. -/
inductive TaskFrame.Lingers (t₀ t : TaskFrame) : Prop
  | same (rest : t₀.AtRest) (h : t = t₀)
  | joining {target : Int} (ready : t₀.state = .ready) (hjoins : t₀.joins? = some target)
      (h : t = { t₀.rest with state := .joining target })
  | waiting {lock : String} (ready : t₀.state = .ready) (hnext : t₀.next? = some (.lock lock))
      (h : t = { t₀.rest with state := .waiting lock })

/-- A task that does not wait is at rest. -/
theorem TaskFrame.Lingers.eq (h : t₀.Lingers t) (hrest : t.AtRest) : t = t₀ := by
  cases h with
  | same _ h => exact h
  | joining _ _ h => exact absurd (congrArg TaskFrame.state h) (hrest.not_joining _)
  | waiting _ _ h => exact absurd (congrArg TaskFrame.state h) (hrest.not_waiting _)

/-- **A machine whose tasks are at rest**, in the state of a machine in which some may wait. -/
structure Rests (m₀ m : Machine) : Prop where
  program : m.program = m₀.program
  length : m.tasks.length = m₀.tasks.length
  tasks : ∀ {u f}, m.task? u = some f → ∃ f₀, m₀.task? u = some f₀ ∧ f₀.Lingers f
  memory : ∀ name, m.memory.get? name = m₀.memory.get? name
  holders : ∀ lock, m.holders.get? lock = m₀.holders.get? lock

/-- Where no task waits all tasks are at rest. -/
theorem Rests.refl (h : ∀ u f, m.task? u = some f → f.AtRest) : Rests m m :=
  ⟨rfl, rfl, fun hu => ⟨_, hu, .same (h _ _ hu) rfl⟩, fun _ => rfl, fun _ => rfl⟩

/-- Only the state of the machine at rest matters. -/
theorem Rests.congr {m₀' : Machine} (h : Rests m₀ m) (hagrees : Agrees m₀ m₀') : Rests m₀' m where
  program := h.program.trans hagrees.program.symm
  length := h.length.trans (by rw [hagrees.tasks])
  tasks := fun hu => by
    obtain ⟨f₀, hf₀, hlingers⟩ := h.tasks hu
    exact ⟨f₀, (hagrees.task? _).trans hf₀, hlingers⟩
  memory := fun name => (h.memory name).trans (hagrees.memory name).symm
  holders := fun lock => (h.holders lock).trans (hagrees.holders lock).symm

/-- A step of a task that waits, or starts to wait, or does neither. -/
theorem Rests.perform (h : Rests m₀ m) (ht : m.task? id = some t) (ht₀ : m₀.task? id = some t₀)
    (hframe : e.frame.Lingers e'.frame) (hspawned : e'.spawned = e.spawned)
    (hstored : e'.stored = e.stored) (hturned : e'.turned = e.turned) :
    Rests (e.perform id m₀).2 (e'.perform id m).2 := by
  have hid := (task?_eq_some.mp ht).1
  exact
    { program := by
        simpa only [perform_snd, touched_program, Effect.apply] using h.program
      length := by
        simp only [perform_snd, touched_tasks, Effect.apply, hspawned, List.length_append,
          List.length_set, h.length]
        cases e.spawned <;> rfl
      tasks := fun {u f} hu => by
        rcases task?_perform_cases ht hu with ⟨hne, hold⟩ | ⟨rfl, rfl⟩ | ⟨thread, hthread, rfl, rfl⟩
        · obtain ⟨f₀, hf₀, hlingers⟩ := h.tasks hold
          exact ⟨f₀, task?_perform_of_ne hid (Ne.symm hne) hf₀, hlingers⟩
        · exact ⟨e.frame, task?_perform_self ht₀, hframe⟩
        · refine ⟨_, ?_, .same (.of_ready rfl) rfl⟩
          rw [h.length, h.program]
          exact task?_perform_spawned (hspawned ▸ hthread)
      memory := fun name => by
        simp only [perform_snd, touched_memory, Effect.apply]
        rw [show e'.memory m.memory =
          e.memory m.memory by rw [Effect.memory, Effect.memory, hstored]]
        exact Effect.get?_memory_congr (h.memory name)
      holders := fun lock => by
        simp only [perform_snd, touched_holders, Effect.apply]
        rw [show e'.holders m.holders =
          e.holders m.holders by rw [Effect.holders, Effect.holders, hturned]]
        exact Effect.get?_holders_congr (h.holders lock) }

/-- A task that starts to wait. -/
theorem Rests.linger (h : Rests m₀ m) (ht : m.task? id = some t) (ht₀ : m₀.task? id = some t₀)
    (hframe : t₀.Lingers e.frame) (hspawned : e.spawned = none) (hstored : e.stored = none)
    (hturned : e.turned = none) : Rests m₀ (e.perform id m).2 := by
  have hid := (task?_eq_some.mp ht).1
  exact
    { program := by
        simpa only [perform_snd, touched_program, Effect.apply] using h.program
      length := by
        simp [perform_snd, touched_tasks, Effect.apply, hspawned, h.length]
      tasks := fun {u f} hu => by
        rcases task?_perform_cases ht hu with ⟨-, hold⟩ | ⟨rfl, rfl⟩ | ⟨thread, hthread, -⟩
        · exact h.tasks hold
        · exact ⟨t₀, ht₀, hframe⟩
        · rw [hspawned] at hthread
          cases hthread
      memory := fun name => by
        rw [perform_snd, touched_memory, Effect.apply, Effect.memory, hstored]
        exact h.memory name
      holders := fun lock => by
        rw [perform_snd, touched_holders, Effect.apply, Effect.holders, hturned]
        exact h.holders lock }

/-! ### The numbers of places -/

theorem location?_touch (m : Machine) (p : Place) :
    (m.touch p).2.location? p = some (m.touch p).1 := by
  cases h : m.location? p with
  | some n => rw [location?_touch_of_some h, touch_fst_of_some h]
  | none =>
    have hfound : m.places.lookup p = none := h
    simp only [touch, h]
    rw [location?, List.lookup_append, hfound]
    simp

/-- A place keeps its number in every step. -/
theorem location?_perform_of_some {p : Place} {n : Location} (h : m.location? p = some n) :
    (e.perform id m).2.location? p = some n := by
  rw [perform_snd]
  cases e.report.place? with
  | none => exact h
  | some q => exact location?_touch_of_some (m := e.apply id m) h

/-- A step gives its place a number. -/
theorem location?_perform_self {p : Place} (h : e.report.place? = some p) :
    (e.perform id m).2.location? p = some (m.touch p).1 := by
  have hsame : ((e.apply id m).touch p).1 = (m.touch p).1 := by
    refine touch_fst_congr ?_ ?_ p <;> rfl
  rw [perform_snd, h, ← hsame]
  exact location?_touch _ p

/-- A place keeps its number in all moves. -/
theorem location?_play {p : Place} {n : Location} (h : m.location? p = some n) (xs : List Move) :
    (m.play xs).location? p = some n := by
  induction xs generalizing m with
  | nil => exact h
  | cons x xs ih => exact ih (location?_perform_of_some h)

/-- Moves give their places numbers. -/
theorem isSome_location?_play {p : Place} (hx : x ∈ xs) (hp : x.effect.report.place? = some p) :
    ((m.play xs).location? p).isSome = true := by
  induction xs generalizing m with
  | nil => cases hx
  | cons z xs ih =>
    rcases List.mem_cons.mp hx with rfl | hx
    · exact Option.isSome_iff_exists.mpr ⟨_, location?_play (location?_perform_self hp) xs⟩
    · exact ih hx

/-- A place keeps its number in every step of a schedule. -/
theorem location?_step {p : Place} {n : Location}
    (hstep : m.step id = (.ok seen, m')) (h : m.location? p = some n) :
    m'.location? p = some n := by
  obtain ⟨t, ht, hcan⟩ := exists_task_of_isActive (isActive_of_step hstep)
  rw [step_eq_perform ht hcan] at hstep
  rw [← show ((m.effect id t).perform id m).2 = m' from congrArg Prod.snd hstep]
  exact location?_perform_of_some h

/-! ### Events of moves -/

/-- The events of a move, with the numbers of places. -/
def Effect.events (e : Effect) (id : Int) (number : Place → Location) : List Event :=
  ((e.report.result id number).toOption.getD []).flatMap Observation.recorded

/-- The events of a move depend on the number of its place only. -/
theorem Effect.events_congr {number number' : Place → Location}
    (h : ∀ p, e.report.place? = some p → number' p = number p) :
    e.events id number' = e.events id number := by
  unfold Effect.events Report.result
  cases hreport : e.report with
  | accesses kind p =>
    dsimp only
    rw [h p (by rw [hreport]; rfl)]
  | _ => rfl

/-- A task that does not wait shows its events. -/
theorem stepEvents_perform (ht : m.task? id = some t)
    (hrests : ∀ lock, e.frame.state ≠ .waiting lock) (hseen : (e.perform id m).1 = .ok seen) :
    (e.perform id m).2.stepEvents id seen = e.events id fun p => (m.touch p).1 := by
  have hwaiting : (e.perform id m).2.isWaiting id = false := by
    unfold isWaiting
    rw [task?_perform_self ht]
    split
    · rename_i lock _ _ hstate
      exact absurd (congrArg TaskFrame.state (Option.some.inj hstate)) (hrests lock)
    · rfl
  rw [stepEvents, hwaiting, Effect.events, ← perform_fst, hseen]
  rfl

/-! ### Runs come down to moves -/

/-- A move that a machine at rest can make, under every key that suits it. -/
structure Makes (m₀ : Machine) (id : Int) (t₀ : TaskFrame) (e : Effect) : Prop where
  task : m₀.task? id = some t₀
  ready : t₀.state = .ready
  settles : m₀.settle id t₀ = e
  move : e.IsMove id
  joined : ∀ target, t₀.joins? = some target →
    ∃ other, m₀.task? target = some other ∧ other.state = .finished

theorem Makes.canMove (h : Makes m₀ id t₀ e) {k : Key}
    (hkey : k.task + 1 = if e.spawned.isSome then (m₀.tasks.length : Int) + 1 else id) :
    m₀.CanMove ⟨id, t₀, e, k⟩ := ⟨h.task, h.ready, h.settles, h.move, h.joined, hkey⟩

/-- **A step that is a move** of the machine at rest. It shows the events of the move, whose place
has its number now. -/
structure StepsBy (m₀ m' : Machine) (id : Int) (seen : List Observation) (t₀ : TaskFrame)
    (e : Effect) : Prop where
  makes : Makes m₀ id t₀ e
  rests : Rests (e.perform id m₀).2 m'
  events : m'.stepEvents id seen = e.events id fun p => (m'.touch p).1
  touched : ∀ p, e.report.place? = some p → (m'.location? p).isSome = true

/-- The step may do the same in another way: a task that has waited goes on. -/
theorem Makes.stepsBy (h : Makes m₀ id t₀ e)
    (hrests : Rests (e.perform id m₀).2 (e'.perform id m).2)
    (hplace : e'.report.place? = e.report.place?)
    (hevents : (e'.perform id m).2.stepEvents id seen = e.events id fun p => (m.touch p).1) :
    StepsBy m₀ (e'.perform id m).2 id seen t₀ e where
  makes := h
  rests := hrests
  events := hevents.trans <| Effect.events_congr fun _ hp =>
    (touch_fst_of_some (location?_perform_self (hplace.trans hp))).symm
  touched := fun p hp => by rw [location?_perform_self (hplace.trans hp)]; rfl

namespace Rests

variable (h : Rests m₀ m)
include h

/-- A task that has finished is at rest. -/
theorem finished {other : TaskFrame} (ho : m.task? target = some other)
    (hfinished : other.state = .finished) :
    ∃ other₀, m₀.task? target = some other₀ ∧ other₀.state = .finished := by
  obtain ⟨o₀, ho₀, hlingers⟩ := h.tasks ho
  exact ⟨o₀, ho₀, by rw [← hlingers.eq ⟨by simp [hfinished], by simp [hfinished]⟩, hfinished]⟩

/-- The step of a task that waits for nothing. -/
theorem step_ready (ht : m.task? id = some t) (hready : t.state = .ready)
    (hstep : m.step id = (.ok seen, m')) (hok : ∀ o ∈ seen, o.kind ≠ .assertFailure) :
    Rests m₀ m' ∧ m'.stepEvents id seen = [] ∨
      ∃ t₀ e, StepsBy m₀ m' id seen t₀ e := by
  obtain ⟨t₀, ht₀, hlingers⟩ := h.tasks ht
  obtain rfl := hlingers.eq (.of_ready hready)
  have heffect : m₀.effect id t = m.effect id t :=
    effect_congr (fun name _ => (h.memory name).symm) (fun lock _ => (h.holders lock).symm) fun _ =>
      h.length.symm
  rw [step_eq_perform ht (by rw [canStep, hready]), Prod.ext_iff] at hstep
  obtain ⟨hseen, rfl⟩ := hstep
  dsimp only at hseen
  cases hjoins : t.joins? with
  | some target =>
    obtain ⟨thread, hnext, hchild⟩ := next?_of_joins hjoins
    have hsilent : m.effect id t =
        { report := .silent, frame := { t.rest with state := .joining target } } := by
      obtain ⟨position, -, -, hrest⟩ := exists_passed_of_next hready hnext
      rw [effect_of_next hready hnext, effectOf,
        show t.rest.children.get? thread = some target by rw [hrest]; exact hchild]
    rw [hsilent] at hseen ⊢
    obtain rfl : [] = seen := Except.ok.inj hseen
    refine Or.inl ⟨h.linger ht ht₀ (.joining hready hjoins rfl) rfl rfl rfl, ?_⟩
    unfold stepEvents
    split <;> rfl
  | none =>
    by_cases htaken : ∃ lock, t.next? = some (.lock lock) ∧ m.holders.has lock = true
    · obtain ⟨lock, hnext, hhas⟩ := htaken
      have hattempt : m.effect id t =
          { report := .accesses .lockAcquire (.lock lock),
            frame := { t.rest with state := .waiting lock } } := by
        rw [effect_of_next hready hnext, effectOf, if_pos hhas]
      rw [hattempt]
      refine Or.inl ⟨h.linger ht ht₀ (.waiting hready hnext rfl) rfl rfl rfl, ?_⟩
      unfold stepEvents isWaiting
      rw [task?_perform_self ht]
      rfl
    · have hsettle : m₀.settle id t = m.effect id t := by rw [settle_of_not_joins hjoins, heffect]
      rw [perform_fst] at hseen
      have hmove : (m₀.settle id t).IsMove id := by
        refine isMove_settle hready (fun cause hfault => ?_) (fun o ho => ?_) fun lock hnext => ?_
        · rw [hsettle] at hfault
          rw [hfault] at hseen
          cases hseen
        · rw [hsettle] at ho
          rw [ho] at hseen
          exact hok o (by rw [← Except.ok.inj hseen]; exact List.mem_singleton_self o)
        · rw [Dictionary.has, ← h.holders]
          exact Bool.eq_false_iff.mpr fun hhas => htaken ⟨lock, hnext, hhas⟩
      rw [hsettle] at hmove
      have hmakes : Makes m₀ id t (m.effect id t) :=
        ⟨ht₀, hready, hsettle, hmove,
          fun target htarget => by rw [hjoins] at htarget; cases htarget⟩
      refine Or.inr ⟨t, _, hmakes.stepsBy ?_ rfl ?_⟩
      · exact h.perform ht ht₀ (.same hmove.atRest rfl) rfl rfl rfl
      · exact stepEvents_perform ht hmove.atRest.not_waiting ((perform_fst ..).trans hseen)

/-- The step of a task that takes the lock that it has waited for. -/
theorem step_waiting {lock : String} (ht : m.task? id = some t) (hs : t.state = .waiting lock)
    (hfree : m.holders.has lock = false) (hstep : m.step id = (.ok seen, m')) :
    ∃ t₀ e, StepsBy m₀ m' id seen t₀ e := by
  obtain ⟨t₀, ht₀, hlingers⟩ := h.tasks ht
  obtain ⟨hready, hnext, rfl⟩ : t₀.state = .ready ∧ t₀.next? = some (.lock lock) ∧
      t = { t₀.rest with state := .waiting lock } := by
    cases hlingers with
    | same hrest heq => exact absurd hs (heq ▸ hrest.not_waiting lock)
    | joining _ _ heq => rw [heq] at hs; cases hs
    | waiting hready hnext heq =>
      rw [heq] at hs
      cases hs
      exact ⟨hready, hnext, heq⟩
  have hrest : t₀.rest.state = .ready := t₀.state_rest.trans hready
  have hfree₀ : m₀.holders.has lock = false := by
    rw [Dictionary.has, ← h.holders]
    exact hfree
  have hjoins : t₀.joins? = none := by rw [TaskFrame.joins?, hnext]
  have hsettle : m₀.settle id t₀ =
      { report := .accesses .lockAcquire (.lock lock), frame := t₀.rest.advance,
        turned := some (lock, some id) } := by
    rw [settle_of_not_joins hjoins, effect_of_next hready hnext, effectOf,
      if_neg (by simp [hfree₀])]
  have hframe :
      ({ ({ t₀.rest with state := .waiting lock } : TaskFrame) with state := .ready }).advance =
        t₀.rest.advance := by
    rw [TaskFrame.advance, TaskFrame.advance, ← hrest]
  rw [step_eq_perform ht (by simpa [canStep] using hfree), Prod.ext_iff] at hstep
  obtain ⟨hseen, rfl⟩ := hstep
  have heffect : m.effect id { t₀.rest with state := .waiting lock } =
      { report := .accesses .lockAcquired (.lock lock), frame := t₀.rest.advance,
        turned := some (lock, some id) } := by
    rw [effect, ← hframe]
  rw [heffect] at hseen ⊢
  have hmakes : Makes m₀ id t₀
      { report := .accesses .lockAcquire (.lock lock), frame := t₀.rest.advance,
        turned := some (lock, some id) } :=
    ⟨ht₀, hready, hsettle, .acquire lock hrest,
      fun target htarget => by rw [hjoins] at htarget; cases htarget⟩
  refine ⟨t₀, _, hmakes.stepsBy ?_ rfl ?_⟩
  · exact h.perform ht ht₀ (.same (.of_ready hrest) rfl) rfl rfl rfl
  · rw [stepEvents_perform ht (by simp [TaskFrame.advance, hrest]) hseen]
    rfl

/-- The step of a task that has waited for another one. -/
theorem step_joining {other : TaskFrame} (ht : m.task? id = some t) (hs : t.state = .joining target)
    (ho : m.task? target = some other) (hfinished : other.state = .finished)
    (hstep : m.step id = (.ok seen, m')) :
    ∃ t₀ e, StepsBy m₀ m' id seen t₀ e := by
  obtain ⟨t₀, ht₀, hlingers⟩ := h.tasks ht
  obtain ⟨hready, hjoins, rfl⟩ : t₀.state = .ready ∧ t₀.joins? = some target ∧
      t = { t₀.rest with state := .joining target } := by
    cases hlingers with
    | same hrest heq => exact absurd hs (heq ▸ hrest.not_joining target)
    | waiting _ _ heq => rw [heq] at hs; cases hs
    | joining hready hjoins heq =>
      rw [heq] at hs
      cases hs
      exact ⟨hready, hjoins, heq⟩
  have hrest : t₀.rest.state = .ready := t₀.state_rest.trans hready
  have hframe :
      ({ ({ t₀.rest with state := .joining target } : TaskFrame) with state := .ready }).advance =
        t₀.rest.advance := by
    rw [TaskFrame.advance, TaskFrame.advance, ← hrest]
  rw [step_eq_perform ht (by simp [canStep, ho, hfinished]), Prod.ext_iff] at hstep
  obtain ⟨hseen, rfl⟩ := hstep
  have heffect : m.effect id { t₀.rest with state := .joining target } =
      { report := .shows (.threadJoin id target), frame := t₀.rest.advance } := by
    rw [effect, ← hframe]
  rw [heffect] at hseen ⊢
  have hmakes : Makes m₀ id t₀
      { report := .shows (.threadJoin id target), frame := t₀.rest.advance } := by
    refine ⟨ht₀, hready, settle_of_joins hjoins, .join target hrest, fun target' htarget => ?_⟩
    rw [hjoins, Option.some_inj] at htarget
    subst htarget
    exact h.finished ho hfinished
  refine ⟨t₀, _, hmakes.stepsBy ?_ rfl ?_⟩
  · exact h.perform ht ht₀ (.same (.of_ready hrest) rfl) rfl rfl rfl
  · rw [stepEvents_perform ht (by simp [TaskFrame.advance, hrest]) hseen]

/-- **A step is a move, or a task starts to wait.** -/
theorem step (hstep : m.step id = (.ok seen, m')) (hok : ∀ o ∈ seen, o.kind ≠ .assertFailure) :
    Rests m₀ m' ∧ m'.stepEvents id seen = [] ∨
      ∃ t₀ e, StepsBy m₀ m' id seen t₀ e := by
  obtain ⟨t, ht, hcan⟩ := exists_task_of_isActive (isActive_of_step hstep)
  rcases canStep_cases hcan with hready | ⟨target, other, hs, ho, hfinished⟩ | ⟨lock, hs, hfree⟩
  · exact h.step_ready ht hready hstep hok
  · exact Or.inr (h.step_joining ht hs ho hfinished hstep)
  · exact Or.inr (h.step_waiting ht hs hfree hstep)

end Rests

/-! ### Moves are runs -/

/-- The steps of a move: two for a join. -/
def Move.steps (x : Move) : List Int := if x.frame.joins?.isSome then [x.task, x.task] else [x.task]

/-- The events of a move. -/
def Move.events (x : Move) (number : Place → Location) : List Event := x.effect.events x.task number

/-- **A move is a run**, with the events of the move. -/
theorem CanMove.follow? (h : m.CanMove x) :
    ∃ seen, m.follow? x.steps = some (seen, x.after m) ∧
      m.events? x.steps = some (x.events fun p => (m.touch p).1) := by
  cases hjoins : x.frame.joins? with
  | none =>
    have hsettle : m.effect x.task x.frame = x.effect := by
      rw [← settle_of_not_joins hjoins, h.settles]
    have hperform : m.step x.task = x.effect.perform x.task m := by
      rw [step_eq_perform h.task (by rw [canStep, h.ready]), hsettle]
    obtain ⟨seen, hseen⟩ : ∃ seen, (x.effect.perform x.task m).1 = .ok seen := by
      rw [perform_fst]
      cases hreport : x.effect.report with
      | fault cause => exact absurd hreport (h.move.not_fault cause)
      | _ => exact ⟨_, rfl⟩
    have hstep : m.step x.task = (.ok seen, x.after m) := by
      rw [hperform]
      exact Prod.ext hseen rfl
    refine ⟨seen, ?_, ?_⟩
    · rw [Move.steps, hjoins]
      simp [Machine.follow?, hstep]
    · rw [Move.steps, hjoins]
      simp only [Option.isSome_none, Bool.false_eq_true, if_false, events?, hstep, Option.map_some,
        List.append_nil]
      exact congrArg some (stepEvents_perform h.task h.move.atRest.not_waiting hseen)
  | some target =>
    obtain ⟨thread, hnext, hchild⟩ := next?_of_joins hjoins
    obtain ⟨position, -, -, hposition⟩ := exists_passed_of_next h.ready hnext
    obtain ⟨other, hother, hfinished⟩ := h.joined target hjoins
    have hrest : x.frame.rest.state = .ready := x.frame.state_rest.trans h.ready
    have heffect : x.effect =
        { report := .shows (.threadJoin x.task target), frame := x.frame.rest.advance } := by
      rw [← h.settles, settle_of_joins hjoins]
    -- the task asks first
    have hask : m.step x.task =
        (.ok [], m.setTask x.task { x.frame.rest with state := .joining target }) := by
      rw [step_eq_perform h.task (by rw [canStep, h.ready]), effect_of_next h.ready hnext, effectOf,
        show x.frame.rest.children.get? thread = some target by rw [hposition]; exact hchild]
      rw [Effect.perform, apply_eq_setTask rfl rfl rfl]
    have hne : x.task ≠ target := by
      intro heq
      rw [← heq, h.task, Option.some_inj] at hother
      rw [← hother, h.ready] at hfinished
      cases hfinished
    have hasks : m.setTask x.task { x.frame.rest with state := .joining target } =
        (Effect.perform
          { report := .silent, frame := { x.frame.rest with state := .joining target } }
          x.task m).2 := by
      rw [Effect.perform, apply_eq_setTask rfl rfl rfl]
    have htask : (m.setTask x.task { x.frame.rest with state := .joining target }).task? x.task =
        some { x.frame.rest with state := .joining target } := by
      rw [hasks]
      exact task?_perform_self h.task
    have hother' : (m.setTask x.task { x.frame.rest with state := .joining target }).task? target =
        some other := by
      rw [hasks]
      exact task?_perform_of_ne h.one_le hne hother
    have hframe :
        ({ ({ x.frame.rest with state := .joining target } : TaskFrame) with state :=
          .ready }).advance =
        x.frame.rest.advance := by
      rw [TaskFrame.advance, TaskFrame.advance, ← hrest]
    have hgo : (m.setTask x.task { x.frame.rest with state := .joining target }).step x.task =
        (.ok [.threadJoin x.task target], x.after m) := by
      rw [step_eq_perform htask (by simp [canStep, hother', hfinished]), effect]
      dsimp only
      rw [hframe, Move.after, heffect, Effect.perform, Effect.perform, apply_eq_setTask rfl rfl rfl,
        apply_eq_setTask rfl rfl rfl, setTask_setTask]
    refine ⟨[.threadJoin x.task target], ?_, ?_⟩
    · rw [Move.steps, hjoins]
      simp [Machine.follow?, hask, hgo]
    · rw [Move.steps, hjoins]
      simp only [Option.isSome_some, if_true, events?, hask, hgo, Option.map_some, List.append_nil]
      refine congrArg some ?_
      have hnone : (m.setTask x.task { x.frame.rest with state := .joining target }).stepEvents
          x.task [] = [] := by
        unfold stepEvents
        split <;> rfl
      rw [hnone, List.nil_append]
      exact stepEvents_perform h.task h.move.atRest.not_waiting (by rw [heffect]; rfl)

/-- Events of two runs one after the other. -/
theorem events?_append {ids ids' : List Int} {es es' : List Event}
    (hfollow : m.follow? ids = some (seen, m')) (hes : m.events? ids = some es)
    (hes' : m'.events? ids' = some es') : m.events? (ids ++ ids') = some (es ++ es') := by
  induction ids generalizing m seen es with
  | nil =>
    cases hfollow
    cases hes
    exact hes'
  | cons id ids ih =>
    obtain ⟨first, rest, m₁, hstep, hrest, -⟩ := follow?_cons_eq_some hfollow
    rw [events?, hstep] at hes
    obtain ⟨more, hmore, rfl⟩ := Option.map_eq_some_iff.mp hes
    rw [List.cons_append, events?, hstep]
    dsimp only
    rw [ih hrest hmore, Option.map_some, List.append_assoc]

/-- **Moves are a run**, with the events of the moves one after the other. -/
theorem Plays.follow? (h : m.Plays xs) :
    ∃ seen, m.follow? (xs.flatMap Move.steps) = some (seen, m.play xs) ∧
      m.events? (xs.flatMap Move.steps) =
        some (xs.flatMap fun x => x.events fun p => ((m.play xs).touch p).1) := by
  induction xs generalizing m with
  | nil => exact ⟨[], rfl, rfl⟩
  | cons x xs ih =>
    obtain ⟨hx, hrest⟩ := h
    obtain ⟨first, hfirst, hevents⟩ := hx.follow?
    obtain ⟨more, hmore, hevents'⟩ := ih hrest
    refine ⟨first ++ more, ?_, ?_⟩
    · rw [List.flatMap_cons, follow?_append, hfirst, Option.bind_some, hmore]
      rfl
    · rw [List.flatMap_cons, events?_append hfirst hevents hevents', List.flatMap_cons]
      refine congrArg (fun es => some (es ++ _)) (Effect.events_congr fun p hp => ?_)
      exact (touch_fst_of_some (location?_play (location?_perform_self hp) xs)).symm

end Machine

end Interleaving
