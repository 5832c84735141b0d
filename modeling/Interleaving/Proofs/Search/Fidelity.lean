import Interleaving.Proofs.Machine.History
import Interleaving.Proofs.Search.Trail
import Interleaving.Proofs.Search.Verdict

/-!
# How faithful the runs of a search are

A run of a search leaves a graph, and the graph is meant to be the run: the same events in every
task, the writes in the order in which they took effect, and no execution met twice.

What a search never does is to make up an error: **a program none of whose schedules ends in a
deadlock or fails an assertion is reported without an error**
(`Interleaving.Program.bugs_eq_nil_of_quiet`).

The rest does not hold for all programs. Two rules of the engine are at fault:

* `Interleaving.Program.overlappingSections` – the turns at a lock are found again along another way
  when a read outside of the critical sections gets an older value, so executions are explored
  twice;
* `Interleaving.Program.halfUpdate` – an earlier atomic update is made to see a write that takes
  effect before an older one. Only the alternative in which the write takes effect last puts the
  second half of the update back, the others lose it. The run does the whole update, the graph has
  half of it;
* `Interleaving.Program.misledReader` – the same lost half makes the graph claim a value that the
  run does not see. A task stops at an assumption, and the search breaks off when the schedule names
  the task again.
-/

namespace Interleaving

/-! ### Programs that come to no harm -/

/-- A step that has a value, shows no error and does not end in a deadlock. -/
def Machine.isQuiet : Machine.StepResult → Bool
  | (.ok seen, m) => seen.all (fun o => o.kind ≠ .assertFailure) && !m.isDeadlocked
  | (.error _, _) => false

namespace Program

/-- A program that comes to no harm: no schedule ends in a deadlock and none fails an assertion. -/
structure Quiet (p : Program) : Prop where
  not_deadlocked : ∀ m, p.Reaches m → m.isDeadlocked = false
  not_shows : ¬ p.Shows .assertFailure

/-- What steps quietly everywhere shows no error and ends in no deadlock. -/
theorem quiet_of_follow? {n : Nat} {m m' : Machine} {ids : List Int} {seen : List Observation}
    (h : m.everywhere (fun _ _ r => Machine.isQuiet r) n = true) (hm : m.isDeadlocked = false)
    (hf : m.follow? ids = some (seen, m')) :
    m'.isDeadlocked = false ∧ ∀ o ∈ seen, o.kind ≠ .assertFailure := by
  induction ids generalizing n m seen with
  | nil =>
    cases hf
    exact ⟨hm, by simp⟩
  | cons id ids ih =>
    obtain ⟨first, rest, m₁, hstep, hrest, rfl⟩ := Machine.follow?_cons_eq_some hf
    have hnone : m.follow? [] = some ([], m) := rfl
    have hone : m.follow? [id] = some (first ++ [], m₁) := by
      rw [Machine.follow?_cons_of_step hstep]
      rfl
    have hquiet := Machine.test_of_everywhere h hnone (Machine.isActive_of_step hstep)
    rw [hstep, Machine.isQuiet, Bool.and_eq_true, List.all_eq_true] at hquiet
    obtain ⟨hfirst, hdead⟩ := hquiet
    obtain ⟨hlast, hall⟩ := ih (Machine.everywhere_follow? h hone).2 (by simpa using hdead) hrest
    refine ⟨hlast, fun o ho => ?_⟩
    rcases List.mem_append.mp ho with ho | ho
    · exact of_decide_eq_true (hfirst o ho)
    · exact hall o ho

/-- Searching all schedules shows that a program comes to no harm. -/
theorem quiet_of_everywhere {p : Program} {n : Nat} (hstart : p.start.isDeadlocked = false)
    (h : p.start.everywhere (fun _ _ r => Machine.isQuiet r) n = true) : p.Quiet where
  not_deadlocked := by
    rintro m ⟨ids, seen, hf⟩
    exact (quiet_of_follow? h hstart hf).1
  not_shows := by
    rintro ⟨ids, seen, m, hf, o, ho, hkind⟩
    exact (quiet_of_follow? h hstart hf).2 o ho hkind

/-- A quiet step has a value. -/
theorem alwaysEvaluates_of_quiet {p : Program} {n : Nat}
    (h : p.start.everywhere (fun _ _ r => Machine.isQuiet r) n = true) : p.AlwaysEvaluates := by
  rintro m ⟨ids, seen, hf⟩ id hid
  have hquiet := Machine.test_of_everywhere h hf hid
  rcases hr : m.step id with ⟨e | seen, m'⟩
  · rw [hr] at hquiet
    cases hquiet
  · rfl

/-- **No error is made up**: of a program that comes to no harm a search reports none, whatever its
limits and its policy. -/
theorem bugs_eq_nil_of_quiet {p : Program} {fuel : Nat} {cfg : Search.Config} {files : Files}
    {f : Search.Finished} (hp : p.usesOnly [.lock, .unlock, .read, .write, .join, .spawn] = true)
    (hquiet : p.Quiet) (hcfg : cfg.replayPath = "")
    (h : Search.run? fuel p cfg files = some f) : f.search.result.bugs = [] := by
  refine List.eq_nil_iff_forall_not_mem.mpr fun b hb => ?_
  obtain ⟨ids, seen, m, hf, o, ho, hkind, -⟩ | ⟨-, m, hreach, hdead⟩ :=
    Search.explained_of_run? hp (by decide) hcfg h b hb
  · exact hquiet.not_shows ⟨ids, seen, m, hf, o, ho, hkind⟩
  · rw [hquiet.not_deadlocked m hreach] at hdead
    cases hdead

/-- Two tasks take one lock in turn. -/
def inTurn : Program :=
  ofInstructions "in_turn" []
    [("main", [.spawn "t", .lock "m", .unlock "m"]), ("t", [.lock "m", .unlock "m"])]

set_option maxRecDepth 100000 in
/-- `Interleaving.Program.inTurn` comes to no harm, and the search reports no error. -/
theorem inTurn_bugs :
    (Search.run? 60 inTurn (Search.everything .fifo 0) .empty).any
      (fun f => f.search.result.bugs.isEmpty) = true := by
  have hquiet : inTurn.Quiet := quiet_of_everywhere (n := 8) (by decide +kernel) (by decide +kernel)
  have hsome : (Search.run? 60 inTurn (Search.everything .fifo 0) .empty).isSome = true := by
    decide +kernel
  obtain ⟨f, hf⟩ := Option.isSome_iff_exists.mp hsome
  rw [hf]
  exact List.isEmpty_iff.mpr (bugs_eq_nil_of_quiet (by decide +kernel) hquiet rfl hf)

/-! ### Executions that are explored twice -/

/-- Every execution is explored once: the search comes to an end with nothing left and without an
error, and for every schedule at whose end no task can step there is exactly one run whose graph
depicts it. -/
def ExploredOnce (p : Program) (policy : Policy) (seed : UInt64) : Prop :=
  ∃ trail f, p.Traverses policy seed trail f ∧ f.search.result.complete = true ∧
    f.search.result.bugs = [] ∧
    ∀ ids seen m h, p.start.follow? ids = some (seen, m) → m.active = [] → p.history? ids = some h →
      trail.countP (fun e => e.status = .ok ∧ e.graph.Depicts h) = 1

/-- Two tasks take a lock in turn, and one of them reads before what a third one writes. -/
def overlappingSections : Program :=
  ofInstructions "overlapping_sections" ["x"]
    [("main", [.spawn "a", .spawn "b", .lock "m", .unlock "m"]),
     ("a", [.read "x" "r", .lock "m", .unlock "m"]),
     ("b", [.write "x" one])]

/-- The schedule of `Interleaving.Program.overlappingSections` in which the main task takes the lock
first and the read sees the write. -/
def overlappingSchedule : List Int := [1, 1, 3, 1, 2, 1, 1, 2, 2, 2, 3]

/-- How many runs of a search depict a schedule; nothing when the schedule is not one to the end. -/
def depictions? (fuel : Nat) (p : Program) (ids : List Int) : Option Nat := do
  let (trail, _) ← Search.trail? fuel p (Search.everything .fifo 0) .empty
  let (_, m) ← p.start.follow? ids
  let h ← p.history? ids
  if m.active = [] then some (trail.countP fun e => e.status = .ok ∧ e.graph.Depicts h) else none

/-- Counting the runs that depict one schedule shows that the executions are not explored once. -/
theorem not_exploredOnce_of_depictions? {p : Program} (fuel : Nat) (ids : List Int) {n : Nat}
    (h : depictions? fuel p ids = some n) (hn : n ≠ 1) : ¬ p.ExploredOnce .fifo 0 := by
  rintro ⟨trail, f, htrail, -, -, hall⟩
  obtain ⟨⟨trail', f'⟩, htrail', h⟩ := Option.bind_eq_some_iff.mp h
  obtain ⟨⟨seen, m⟩, hf, h⟩ := Option.bind_eq_some_iff.mp h
  obtain ⟨hist, hhist, h⟩ := Option.bind_eq_some_iff.mp h
  obtain ⟨rfl, -⟩ := htrail.unique ⟨fuel, htrail'⟩
  split at h
  · rename_i hactive
    cases h
    exact hn (hall ids seen m hist hf hactive hhist)
  · cases h

set_option maxRecDepth 100000 in
/-- **Critical sections are not explored exactly once.** Two runs of the search depict
`Interleaving.Program.overlappingSchedule`. -/
theorem not_exploredOnce_of_locks :
    ¬ ∀ p : Program, p.isValid = true →
      p.usesOnly [.lock, .unlock, .read, .write, .join, .spawn] = true → p.uses .lock = true →
      p.spawnsInMainOnly = true → p.Quiet → p.AlwaysEvaluates → p.ExploredOnce .fifo 0 := by
  intro h
  have hall : overlappingSections.start.everywhere (fun _ _ r => Machine.isQuiet r) 12 = true := by
    decide +kernel
  have htwice : depictions? 60 overlappingSections overlappingSchedule = some 2 := by decide +kernel
  refine not_exploredOnce_of_depictions? 60 overlappingSchedule htwice (by decide) ?_
  exact h overlappingSections (by decide +kernel) (by decide +kernel) (by decide +kernel)
    (by decide +kernel) (quiet_of_everywhere (by decide +kernel) hall)
    (alwaysEvaluates_of_quiet hall)

end Program

/-! ### Graphs that miss part of their run -/

namespace Search

/-- The tasks that stepped in a run, in order. -/
def Ending.steps (e : Ending) : List Int := e.schedule.filterMap Directive.steps?

/-- **The graph of a run is the run**: every task has the events of its steps, and the writes to
every variable are in the order in which they took effect. -/
def Ending.IsFaithful (p : Program) (e : Ending) : Prop :=
  ∃ h, p.history? e.steps = some h ∧ (∀ task, e.graph.kinds task = h.kinds task) ∧
    (e.graph.orders Kind.writesVariable).Perm (h.orders Kind.writesVariable)

/-- Whether some run that ended well did not leave all events of a task. -/
def missesEvents (fuel : Nat) (p : Program) (task : Int) : Bool :=
  (trail? fuel p (everything .fifo 0) .empty).any fun r =>
    r.1.any fun e => e.status = .ok ∧
      (p.history? e.steps).any fun h => e.graph.kinds task ≠ h.kinds task

/-- A run that did not leave all events of a task is not faithful. -/
theorem exists_not_isFaithful {fuel : Nat} {p : Program} {task : Int}
    (h : missesEvents fuel p task = true) :
    ∃ trail f, trail? fuel p (everything .fifo 0) .empty = some (trail, f) ∧
      ∃ e ∈ trail, e.status = .ok ∧ ¬ e.IsFaithful p := by
  obtain ⟨⟨trail, f⟩, htrail, h⟩ := (Option.any_eq_true _ _).mp h
  obtain ⟨e, he, h⟩ := List.any_eq_true.mp h
  obtain ⟨hstatus, hmiss⟩ := of_decide_eq_true h
  obtain ⟨hist, hhist, hne⟩ := (Option.any_eq_true _ _).mp hmiss
  refine ⟨trail, f, htrail, e, he, hstatus, ?_⟩
  rintro ⟨hist', hhist', hkinds, -⟩
  rw [hhist] at hhist'
  cases hhist'
  exact of_decide_eq_true hne (hkinds task)

end Search

namespace Program

/-- An atomic update and two writes race. -/
def halfUpdate : Program :=
  ofInstructions "half_update" ["x"]
    [("main", [.spawn "a", .spawn "b", .write "x" one]),
     ("a", [.fetchAdd "x" "" one]),
     ("b", [.write "x" one])]

set_option maxRecDepth 100000 in
/-- **The graph of a run is not always the run.** In the third run of the search for
`Interleaving.Program.halfUpdate` task one does its update, and the graph has only the read of
it. -/
theorem not_isFaithful_of_update :
    ¬ ∀ (p : Program) (cfg : Search.Config) (files : Files) (fuel : Nat)
      (trail : List Search.Ending) (f : Search.Finished), p.isValid = true → cfg.replayPath = "" →
      Search.trail? fuel p cfg files = some (trail, f) →
      ∀ e ∈ trail, e.status = .ok → e.IsFaithful p := by
  intro h
  have hmiss : Search.missesEvents 60 halfUpdate 1 = true := by decide +kernel
  obtain ⟨trail, f, htrail, e, he, hstatus, hnot⟩ := Search.exists_not_isFaithful hmiss
  exact hnot (h halfUpdate _ _ 60 trail f (by decide +kernel) rfl htrail e he hstatus)

end Program

/-! ### Searches that break off -/

/-- A rule of the engine is broken: the engine says so, or its schedule names a task that cannot
step. -/
def Search.Error.isInternal : Search.Error → Bool
  | .scheduler (.engine _) => true
  | .inactive _ _ => true
  | _ => false

namespace Program

/-- The expression of the number three. -/
def three : Expression := .literal (.number (.ofInt 3))

/-- An atomic update and two writes race, and a task goes on only if it sees the update of its own
write. -/
def misledReader : Program :=
  ofInstructions "misled_reader" ["x", "y"]
    [("main", [.spawn "a", .spawn "b", .write "x" one]),
     ("a", [.write "y" one, .fetchAdd "x" "" one]),
     ("b", [.write "x" (.literal (.number (.ofInt 2))), .read "x" "r",
       .assume (.binary .equal (.register "r") three), .read "y" "q"])]

set_option maxRecDepth 100000 in
/-- **The search of a valid program can break off.** In the sixth run of the search for
`Interleaving.Program.misledReader` the schedule names a task that has stopped at its assumption. -/
theorem not_without_internal_error :
    ¬ ∀ (p : Program) (cfg : Search.Config) (files : Files) (fuel : Nat) (f : Search.Finished),
      p.isValid = true → p.AlwaysEvaluates → cfg.replayPath = "" → cfg.scheduler.debugDir = "" →
      Search.run? fuel p cfg files = some f → ∀ e, f.error = some e → e.isInternal = false := by
  intro h
  have hbreak : (Search.run? 60 misledReader (Search.everything .fifo 0) .empty).any
      (fun f => f.error.any Search.Error.isInternal) = true := by decide +kernel
  obtain ⟨f, hf, herror⟩ := (Option.any_eq_true _ _).mp hbreak
  obtain ⟨e, he, hinternal⟩ := (Option.any_eq_true _ _).mp herror
  have heval : misledReader.AlwaysEvaluates :=
    alwaysEvaluates_of_everywhere (n := 12) (by decide +kernel)
  rw [h misledReader _ _ 60 f (by decide +kernel) heval rfl rfl hf e he] at hinternal
  cases hinternal

end Program

end Interleaving
