import Interleaving.Proofs.Program.Validity
import Interleaving.Proofs.Search.Soundness

/-!
# What a verdict says about a program

A search reports errors of a program (`Interleaving.Program.ReportsError`), or it explores
everything without finding one and calls the program **safe** (`Interleaving.Program.IsCalledSafe`);
it never does both. Errors that it reports are real: a program without locks then has a schedule
along which an assertion fails (`Interleaving.Program.shows_of_reportsError`), and one with nothing
but locks has a schedule that ends in a deadlock or misuses a lock
(`Interleaving.Program.deadlock_of_reportsError`).

Whether a program that is called safe *is* safe is another matter. Exclusive accesses, locks and
threads that spawn side by side enter the graph under rules of their own, and each of these rules
loses executions. For each of them there is a program of a few operations that the search calls safe
although one of its schedules ends in an error:

* `Interleaving.Program.lostUpdate` – an atomic update races with a write. The alternative in which
  the update reads the older write is tried with the second half of the update at the end of the
  coherency chain, which tears the update, so it is refused;
* `Interleaving.Program.keptLock` – a thread that keeps a lock takes it first. The search follows
  this order, but the graph blocks the other thread before it has tried the lock, so the run ends as
  blocked and not as deadlocked;
* `Interleaving.Program.twoSpawners` – two threads spawn. The starts of their children are chained,
  so that a write seems to happen before a read that it races with.
-/

namespace Interleaving

namespace Program

/-! ### Verdicts -/

/-- A search explores everything and finds no error. -/
def IsCalledSafe (p : Program) (policy : Policy) (seed : UInt64) : Prop :=
  ∃ f, p.Concludes policy seed f ∧ f.search.result.complete = true ∧ f.search.result.bugs = []

/-- A search comes to an end and reports an error. -/
def ReportsError (p : Program) (policy : Policy) (seed : UInt64) : Prop :=
  ∃ f, p.Concludes policy seed f ∧ f.search.result.bugs ≠ []

/-- A search does not contradict itself: of a program that is called safe no error is reported. -/
theorem IsCalledSafe.not_reportsError {p : Program} {policy : Policy} {seed : UInt64}
    (h : p.IsCalledSafe policy seed) : ¬ p.ReportsError policy seed := by
  rintro ⟨f', hf', hbugs⟩
  obtain ⟨f, hf, -, hnone⟩ := h
  rw [hf'.unique hf] at hbugs
  exact hbugs hnone

/-- Running the search is enough to see that a program is called safe. -/
theorem isCalledSafe_of_run? {p : Program} {policy : Policy} {seed : UInt64} (fuel : Nat)
    (h : (Search.run? fuel p (Search.everything policy seed) .empty).any
      (fun f => f.search.result.complete && f.search.result.bugs.isEmpty) = true) :
    p.IsCalledSafe policy seed := by
  obtain ⟨f, hf, hsafe⟩ := (Option.any_eq_true _ _).mp h
  obtain ⟨hcomplete, hbugs⟩ := Bool.and_eq_true_iff.mp hsafe
  exact ⟨f, ⟨fuel, hf⟩, hcomplete, List.isEmpty_iff.mp hbugs⟩

/-- Running the search is enough to see that it reports an error. -/
theorem reportsError_of_run? {p : Program} {policy : Policy} {seed : UInt64} (fuel : Nat)
    (h : (Search.run? fuel p (Search.everything policy seed) .empty).any
      (fun f => !f.search.result.bugs.isEmpty) = true) :
    p.ReportsError policy seed := by
  obtain ⟨f, hf, hbugs⟩ := (Option.any_eq_true _ _).mp h
  exact ⟨f, ⟨fuel, hf⟩, by simpa using hbugs⟩

/-- Following one schedule is enough to see what a program can show. -/
theorem shows_of_follow? {p : Program} {kind : Observation.Kind} (ids : List Int)
    (h : (p.start.follow? ids).any (fun r => r.1.any (fun o => o.kind = kind)) = true) :
    p.Shows kind := by
  obtain ⟨⟨seen, m⟩, hf, hseen⟩ := (Option.any_eq_true _ _).mp h
  obtain ⟨o, ho, hkind⟩ := List.any_eq_true.mp hseen
  exact ⟨ids, seen, m, hf, o, ho, of_decide_eq_true hkind⟩

/-- Following one schedule is enough to see that a program can come to a deadlock. -/
theorem reaches_deadlock_of_follow? {p : Program} (ids : List Int)
    (h : (p.start.follow? ids).any (fun r => r.2.isDeadlocked) = true) :
    ∃ m, p.Reaches m ∧ m.isDeadlocked = true := by
  obtain ⟨⟨seen, m⟩, hf, hdead⟩ := (Option.any_eq_true _ _).mp h
  exact ⟨m, ⟨ids, seen, hf⟩, hdead⟩

/-! ### Reports are right -/

/-- A report is explained by a schedule of the program. -/
theorem explains_of_reportsError {p : Program} {policy : Policy} {seed : UInt64}
    {kinds : List OperationKind} (hp : p.usesOnly kinds = true)
    (hkinds : OperationKind.assume ∉ kinds) (h : p.ReportsError policy seed) :
    ∃ message, p.Explains message := by
  obtain ⟨f, ⟨fuel, hf⟩, hbugs⟩ := h
  obtain ⟨b, hb⟩ := List.exists_mem_of_ne_nil _ hbugs
  exact ⟨b.message, Search.explained_of_run? hp hkinds rfl hf b hb⟩

/-- **An error that is reported of a program without locks is a failed assertion**: some schedule
shows it. -/
theorem shows_of_reportsError {p : Program} {policy : Policy} {seed : UInt64}
    (hp : p.usesOnly [.read, .write, .fetchAdd, .spawn, .join, .assert] = true)
    (h : p.ReportsError policy seed) : p.Shows .assertFailure := by
  obtain ⟨message, hshows | ⟨-, m, ⟨ids, seen, hf⟩, hdead⟩⟩ :=
    explains_of_reportsError hp (by decide) h
  · obtain ⟨ids, seen, m, hf, o, ho, hkind, -⟩ := hshows
    exact ⟨ids, seen, m, hf, o, ho, hkind⟩
  · exact ⟨ids, seen, m, hf, shows_of_deadlock hp hf hdead⟩

/-- The expression of the number one. -/
def one : Expression := .literal (.number (.ofInt 1))

/-- Two atomic updates race, and one task asserts that it came second. -/
def racingUpdates : Program :=
  ofInstructions "racing_updates" ["x"]
    [("main", [.spawn "t", .fetchAdd "x" "" one]),
     ("t", [.fetchAdd "x" "r" one, .assert (.binary .equal (.register "r") one) ""])]

set_option maxRecDepth 100000 in
example : racingUpdates.Shows .assertFailure := by
  have hreport : racingUpdates.ReportsError .fifo 0 := reportsError_of_run? 60 (by decide +kernel)
  exact shows_of_reportsError (by decide +kernel) hreport

/-- **An error that is reported of a program with nothing but locks is a deadlock**, unless a task
releases a lock that it does not hold or waits for a task that it has not spawned. -/
theorem deadlock_of_reportsError {p : Program} {policy : Policy} {seed : UInt64}
    (hp : p.usesOnly [.lock, .unlock, .spawn, .join] = true) (h : p.ReportsError policy seed) :
    (∃ m, p.Reaches m ∧ m.isDeadlocked = true) ∨ p.Shows .assertFailure := by
  obtain ⟨message, hshows | ⟨-, hdead⟩⟩ := explains_of_reportsError hp (by decide) h
  · obtain ⟨ids, seen, m, hf, o, ho, hkind, -⟩ := hshows
    exact Or.inr ⟨ids, seen, m, hf, o, ho, hkind⟩
  · exact Or.inl hdead

/-- Two tasks take a lock and keep it. -/
def hoardedLock : Program :=
  ofInstructions "hoarded_lock" [] [("main", [.spawn "t", .lock "m"]), ("t", [.lock "m"])]

set_option maxRecDepth 100000 in
example :
    (∃ m, hoardedLock.Reaches m ∧ m.isDeadlocked = true) ∨ hoardedLock.Shows .assertFailure := by
  have hreport : hoardedLock.ReportsError .fifo 0 := reportsError_of_run? 60 (by decide +kernel)
  exact deadlock_of_reportsError (by decide +kernel) hreport

/-! ### Programs that are wrongly called safe -/

/-- An atomic update races with a write, and the task asserts that it saw the write. -/
def lostUpdate : Program :=
  ofInstructions "lost_update" ["x"]
    [("main", [.spawn "t", .write "x" one]),
     ("t", [.fetchAdd "x" "r" one, .assert (.binary .equal (.register "r") one) ""])]

set_option maxRecDepth 100000 in
/-- **A safe verdict is not right for all programs with atomic updates.** The update of
`Interleaving.Program.lostUpdate` comes first along the schedule that lets the second task run right
after it is spawned, and the assertion fails. -/
theorem not_safe_of_fetchAdd :
    ¬ ∀ p : Program, p.isValid = true → p.uses .fetchAdd = true →
      p.usesOnly [.read, .write, .fetchAdd, .join, .assert, .spawn] = true →
      p.spawnsInMainOnly = true → p.AlwaysEvaluates →
      p.IsCalledSafe .fifo 0 → ¬ p.Shows .assertFailure := by
  intro h
  refine h lostUpdate (by decide +kernel) (by decide +kernel) (by decide +kernel)
    (by decide +kernel) ?_ ?_ ?_
  · exact alwaysEvaluates_of_everywhere (n := 9) (by decide +kernel)
  · exact isCalledSafe_of_run? 60 (by decide +kernel)
  · exact shows_of_follow? [1, 2, 2] (by decide +kernel)

/-- Two tasks take one lock, and the second one keeps it. -/
def keptLock : Program :=
  ofInstructions "kept_lock" []
    [("main", [.spawn "t", .lock "m", .unlock "m"]), ("t", [.lock "m"])]

set_option maxRecDepth 100000 in
/-- **Deadlocks are missed.** In `Interleaving.Program.keptLock` the main task waits for ever once
the other one has taken the lock. -/
theorem not_reportsError_of_deadlock :
    ¬ ∀ p : Program, p.isValid = true → p.usesOnly [.lock, .unlock, .join, .spawn] = true →
      p.spawnsInMainOnly = true → (∃ m, p.Reaches m ∧ m.isDeadlocked = true) →
      p.ReportsError .fifo 0 := by
  intro h
  have hsafe : keptLock.IsCalledSafe .fifo 0 := isCalledSafe_of_run? 60 (by decide +kernel)
  refine hsafe.not_reportsError (h keptLock (by decide +kernel) (by decide +kernel)
    (by decide +kernel) ?_)
  exact reaches_deadlock_of_follow? [1, 2, 1, 2] (by decide +kernel)

/-- The main task and another one both spawn, the other one before it reads what the main task
writes. -/
def twoSpawners : Program :=
  ofInstructions "two_spawners" ["x"]
    [("main", [.spawn "a", .write "x" one, .spawn "b"]),
     ("a", [.spawn "b", .read "x" "r", .assert (.binary .equal (.register "r") one) ""]),
     ("b", [])]

set_option maxRecDepth 100000 in
/-- **A safe verdict is not right when several threads spawn.** In
`Interleaving.Program.twoSpawners` the read may come before the write, and then the assertion
fails. -/
theorem not_safe_of_two_spawners :
    ¬ ∀ p : Program, p.isValid = true → p.usesOnly [.read, .write, .join, .assert, .spawn] = true →
      2 ≤ p.spawners.length → p.IsFinite → p.AlwaysEvaluates →
      p.IsCalledSafe .fifo 0 → ¬ p.Shows .assertFailure := by
  intro h
  have hall : twoSpawners.start.everywhere (fun _ _ r => r.1.isOk) 12 = true := by decide +kernel
  refine h twoSpawners (by decide +kernel) (by decide +kernel) (by decide +kernel)
    (isFinite_of_everywhere hall) (alwaysEvaluates_of_everywhere hall) ?_ ?_
  · exact isCalledSafe_of_run? 60 (by decide +kernel)
  · exact shows_of_follow? [1, 2, 2, 2] (by decide +kernel)

end Program

end Interleaving
