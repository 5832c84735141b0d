import Interleaving.Proofs.Machine.Finite
import Interleaving.Search.Run

/-!
# Runs come to an end

The loop of a run has no limit of its own. It ends all the same (`Interleaving.Program.AlwaysEnds`)
when no thread that the program can come to spawns itself: a turn of the loop takes a step of the
machine, of which there is a bounded number (`Interleaving.Machine.Bounded.follow?`), or it uses up
one of the directives that the scheduler holds (`Interleaving.Scheduler.held`). The scheduler may be
in any state and follow any policy, schedule or trace.

Threads that spawn themselves pass validation, and their runs have no bound: in
`Interleaving.Program.endlessSpawning` every task spawns the next one.
-/

namespace Interleaving

/-! ### Directives that need no step -/

namespace Scheduler

variable {s s' : Scheduler} {d : Directive} {active : List Int}

/-- How many directives a scheduler holds: what is left of a trace and of the schedule that is
replayed, and a task that must be blocked. -/
def held (s : Scheduler) : Nat :=
  s.trace.length + s.engine.guiding.length + (if s.engine.mustBlock.isSome then 1 else 0)

/-- A policy picks tasks and nothing else. -/
theorem kind_of_pick (h : s.pick active = (some d, s')) : d.kind = .task := by
  unfold pick at h
  split at h
  · cases h
  · split at h
    all_goals
      cases h
      rfl

/-- What the engine asks for uses up a directive that it holds. -/
theorem held_nextDirective {engine : Engine} (h : s.engine.nextDirective = (some d, engine)) :
    held { s with engine } < s.held := by
  unfold Engine.nextDirective at h
  unfold held
  split at h
  · rename_i task hblock
    cases h
    simp [hblock]
  · rename_i hblock
    split at h
    · split at h
      · cases h
      · rename_i entry rest hguiding
        cases h
        simp [hguiding]
    · cases h

/-- **A directive runs a task, or it is one that the scheduler held.** -/
theorem held_next (h : s.next active = (some d, s')) : d.kind = .task ∨ s'.held < s.held := by
  unfold next at h
  cases hchoose : s.choose active with
  | mk d? s₁ =>
    rw [hchoose] at h
    cases d? with
    | none => cases h
    | some d₁ =>
      cases h
      unfold choose at hchoose
      split at hchoose
      · split at hchoose
        · rename_i d rest htrace
          cases hchoose
          exact .inr (by simp [held, htrace])
        · exact .inl (kind_of_pick hchoose)
      · split at hchoose
        · rename_i d engine hnext
          cases hchoose
          exact .inr (held_nextDirective hnext)
        · exact .inl (kind_of_pick hchoose)

end Scheduler

/-! ### Turns of a run -/

namespace Run

variable {r r' : Run} {p : Program}

/-- What a scheduler is told leaves the machine as it is. -/
theorem tell_machine (ending : Outcome → Bool) (r : Run) (seen : List Observation) :
    (r.tell ending seen).2.machine = r.machine := by
  induction seen generalizing r with
  | nil => rfl
  | cons o rest ih =>
    unfold tell
    split
    · rfl
    · dsimp only
      split
      · rfl
      · rw [ih]

/-- A run that goes on after a directive has taken a step, or the directive was none to run a
task. -/
theorem follow_cases {d : Directive} {active : List Int} (h : r.follow d active = (.going, r')) :
    (∃ seen, r.machine.step d.task = (.ok seen, r'.machine)) ∨ r' = r ∧ d.kind ≠ .task := by
  have hstep : r.stepTask d.task = (.going, r') →
      ∃ seen, r.machine.step d.task = (.ok seen, r'.machine) := by
    intro h
    unfold stepTask at h
    split at h
    · cases h
    · rename_i seen machine hmachine
      refine ⟨seen, ?_⟩
      rw [hmachine, ← show (tell ends { r with machine } seen).2 = r' by rw [h], tell_machine]
  unfold follow at h
  split at h
  · rename_i hkind
    cases h
    exact .inr ⟨rfl, by simp [hkind]⟩
  · cases h
  · rename_i hkind
    cases h
    exact .inr ⟨rfl, by simp [hkind]⟩
  · split at h
    · exact .inl (hstep h)
    · cases h

/-- **A turn after which the run goes on** takes a step, or uses up a directive. -/
theorem advance_cases (h : r.advance = (.going, r')) :
    (∃ id seen, r.machine.step id = (.ok seen, r'.machine)) ∨
      r'.machine = r.machine ∧ r'.scheduler.held < r.scheduler.held := by
  unfold advance at h
  dsimp only at h
  split at h
  · rename_i d scheduler hnext
    rcases follow_cases h with ⟨seen, hstep⟩ | ⟨rfl, hkind⟩
    · exact .inl ⟨d.task, seen, hstep⟩
    · refine .inr ⟨rfl, ?_⟩
      rcases Scheduler.held_next hnext with htask | hlt
      · exact absurd htask hkind
      · exact hlt
  · have hclose : ∀ {x : Run} {o : Observation}, x.close o ≠ (.going, r') := by
      intro x o hx
      unfold close at hx
      split at hx <;> cases hx
    split at h
    · exact absurd h hclose
    · split at h
      · exact absurd h hclose
      · cases h

/-- **A run comes to its end.** Each turn takes work off the machine, or leaves the machine as it is
and uses up a directive. -/
theorem exists_finish {seen : List Observation} (hv : p.isValid = true)
    (hrec : ¬ p.IsRecursive) (r : Run) (hr : r.machine.Bounded p seen) :
    ∃ fuel y, finish fuel (.going, r) = some y := by
  suffices h : ∃ fuel y, finish fuel r.advance = some y by
    obtain ⟨fuel, y, hy⟩ := h
    exact ⟨fuel + 1, y, hy⟩
  cases hadvance : r.advance with
  | mk progress r' =>
    cases progress with
    | ended status message => exact ⟨1, _, rfl⟩
    | failed error => exact ⟨1, _, rfl⟩
    | going =>
      rcases advance_cases hadvance with ⟨id, now, hstep⟩ | ⟨hmachine, hheld⟩
      · have hbounded := hr.step hv hrec hstep
        exact exists_finish hv hrec r' hbounded.1
      · exact exists_finish hv hrec r' (hmachine ▸ hr)
termination_by (Machine.workLeft p r.machine, r.scheduler.held)
decreasing_by
  · exact Prod.Lex.left _ _ hbounded.2
  · rw [hmachine]
    exact Prod.Lex.right _ hheld

end Run

/-! ### Programs that end -/

namespace Program

open Machine

/-- No run of a program goes on for ever. -/
structure AlwaysEnds (p : Program) : Prop where
  /-- There is a bound on the steps that come to pass one after the other from the start of a
  run. -/
  bounded : ∃ n, ∀ run ids seen m, ((ofProgram p).reset run).2.follow? ids = some (seen, m) →
    ids.length ≤ n
  /-- The loop of a run ends, whatever the state of the scheduler. -/
  ends : ∀ (r : Run) (run : Int), r.machine.program = p →
    ∃ fuel y, Run.finish fuel (r.start run) = some y

/-- **Runs of valid programs without recursion come to an end.** -/
theorem alwaysEnds {p : Program} (hv : p.isValid = true) (hrec : ¬ p.IsRecursive) :
    p.AlwaysEnds where
  bounded := by
    refine ⟨workLeft p ((ofProgram p).reset 0).2, fun run ids seen m hf => ?_⟩
    have hle := (bounded_reset hv run).follow? hv hrec hf
    -- runs start alike but for their numbers of locations, which are no work
    rwa [show workLeft p ((ofProgram p).reset run).2 =
      workLeft p ((ofProgram p).reset 0).2 from rfl] at hle
  ends := by
    intro r run hprogram
    have hreset : r.machine.reset run = (ofProgram p).reset run := by
      unfold reset
      rw [hprogram]
      rfl
    cases hstart : r.start run with
    | mk progress r' =>
      cases progress with
      | ended status message => exact ⟨1, _, rfl⟩
      | failed error => exact ⟨1, _, rfl⟩
      | going =>
        have hmachine : r'.machine = ((ofProgram p).reset run).2 := by
          rw [← show (r.start run).2 = r' by rw [hstart], ← hreset]
          exact Run.tell_machine _ _ _
        exact Run.exists_finish hv hrec r' (hmachine ▸ bounded_reset hv run)

/-- Threads of which each ranks above those that it spawns do not spawn themselves. -/
theorem not_isRecursive_of_lt {p : Program} (f : String → Nat)
    (h : ∀ a b, p.Spawns a b → f b < f a) : ¬ p.IsRecursive := by
  rintro ⟨thread, -, hself⟩
  have hlt : ∀ b, Relation.TransGen p.Spawns thread b → f b < f thread := by
    intro b hb
    induction hb with
    | single hab => exact h _ _ hab
    | tail _ hbc ih => exact (h _ _ hbc).trans ih
  exact absurd (hlt thread hself) (Nat.lt_irrefl _)

/-- Two threads that spawn, one below the other, with joins and a lock. -/
def nestedSpawns : Program :=
  ofInstructions "nested spawns" []
    [("main", [.spawn "outer", .lock "m", .spawn "inner", .unlock "m", .join "outer"]),
      ("outer", [.spawn "inner", .lock "m", .unlock "m", .join "inner"]), ("inner", [])]

/-- The runs of `Interleaving.Program.nestedSpawns` end. -/
theorem nestedSpawns_alwaysEnds :
    nestedSpawns.isValid = true ∧ ¬ nestedSpawns.IsRecursive ∧ nestedSpawns.AlwaysEnds := by
  have hrec : ¬ nestedSpawns.IsRecursive := by
    refine not_isRecursive_of_lt (fun a => if a = "main" then 2 else if a = "outer" then 1 else 0)
      fun a b h => ?_
    obtain ⟨ops, hentry, hmem⟩ := exists_entry_of_mem_code h
    have hentries : nestedSpawns.threads.entries =
        [("inner", []),
          ("main", [Instruction.spawn "outer", .lock "m", .spawn "inner", .unlock "m",
            .join "outer"].map Instruction.operation),
          ("outer", [Instruction.spawn "inner", .lock "m", .unlock "m",
            .join "inner"].map Instruction.operation)] := by
      rfl
    rw [hentries] at hentry
    simp only [List.mem_cons, Prod.mk.injEq, List.not_mem_nil, or_false] at hentry
    rcases hentry with ⟨rfl, rfl⟩ | ⟨rfl, rfl⟩ | ⟨rfl, rfl⟩
    · cases hmem
    · rw [codeOf_operations] at hmem
      simp only [List.mem_cons, Instruction.spawn.injEq, reduceCtorEq, List.not_mem_nil, or_false,
        false_or] at hmem
      rcases hmem with rfl | rfl <;> decide
    · rw [codeOf_operations] at hmem
      simp only [List.mem_cons, Instruction.spawn.injEq, reduceCtorEq, List.not_mem_nil,
        or_false] at hmem
      subst hmem
      decide
  exact ⟨by decide +kernel, hrec, alwaysEnds (by decide +kernel) hrec⟩

/-- A thread that does nothing but spawn itself. -/
def endlessSpawning : Program :=
  ofInstructions "endless spawning" [] [("main", [.spawn "next"]), ("next", [.spawn "next"])]

/-- The thread of `Interleaving.Program.endlessSpawning` that spawns itself, before its first
step. -/
def nextTask : TaskFrame := .start "next" ((endlessSpawning.threads.get? "next").getD [])

/-- A task of `Interleaving.Program.endlessSpawning` can always spawn the next one. -/
theorem exists_step_of_nextTask {m : Machine} {id : Int} (hp : m.program = endlessSpawning)
    (ht : m.task? id = some nextTask) :
    ∃ seen m', m.step id = (.ok seen, m') ∧ m'.program = endlessSpawning ∧
      m'.task? (m.tasks.length + 1) = some nextTask := by
  have hstep : m.step id = (m.effect id nextTask).perform id m := step_eq_perform ht rfl
  have hspawned : (m.effect id nextTask).spawned = some "next" := rfl
  refine ⟨_, _, hstep, ?_, ?_⟩
  · exact hp
  · have hget : ((m.effect id nextTask).perform id m).2.task? (m.tasks.length + 1) = _ :=
      task?_perform_spawned hspawned
    rw [hp] at hget
    exact hget

/-- **Validation does not keep runs from going on for ever.** -/
theorem not_alwaysEnds_of_recursion : ¬ ∀ p : Program, p.isValid = true → p.AlwaysEnds := by
  intro h
  obtain ⟨n, hn⟩ := (h endlessSpawning (by decide +kernel)).bounded
  have hlong : ∀ k, ∃ ids seen m id, ids.length = k ∧
      ((ofProgram endlessSpawning).reset 0).2.follow? (1 :: ids) = some (seen, m) ∧
        m.program = endlessSpawning ∧ m.task? id = some nextTask := by
    intro k
    induction k with
    | zero => exact ⟨[], _, _, 2, rfl, rfl, rfl, rfl⟩
    | succ k ih =>
      obtain ⟨ids, seen, m, id, hlen, hf, hp, ht⟩ := ih
      obtain ⟨now, m', hstep, hp', ht'⟩ := exists_step_of_nextTask hp ht
      refine ⟨ids ++ [id], seen ++ now, m', _, by simp [hlen], ?_, hp', ht'⟩
      rw [← List.cons_append, follow?_append, hf, Option.bind_some, follow?_cons_of_step hstep]
      simp [follow?]
  obtain ⟨ids, seen, m, id, hlen, hf, -⟩ := hlong n
  have hle := hn 0 (1 :: ids) seen m hf
  rw [List.length_cons, hlen] at hle
  exact absurd hle (Nat.not_succ_le_self n)

end Program

end Interleaving
