import Interleaving.Proofs.Graph.Entry
import Interleaving.Proofs.Search.Causality

/-!
# Locks along a search

A graph keeps the **discipline of locks** (`Interleaving.Graph.Disciplined`) when the acquisitions
and releases of every lock take turns in its chain, every read of an acquisition sees what stands
before the acquisition, and the tasks that wait for a lock are the blocked ones just while the lock
is held. Chain, waiting list and blocking labels are changed by different operations, so this is
what they have to agree on.

One would expect that all states that a search passes keep the discipline. They do not
(`Interleaving.Program.not_disciplined_of_update`). As in `Interleaving.Program.joinedUpdate` an
atomic update has lost its second half and may still be revisited, and the revisit blocks its task.
In `Interleaving.Program.stalledUpdate` the task waits for a lock at that time. The lock is free
again, so its label had been taken off, and now the task stays blocked until somebody takes the lock
and gives it back.
-/

namespace Interleaving

namespace Graph

/-- Acquisitions and releases take turns, and every release is by the task of the acquisition before
it. The task given is the one that holds the lock at the start. -/
def TakesTurns (g : Graph) : Option Int → List Key → Prop
  | _, [] => True
  | none, k :: ks => g.kindOf? k = some .lockAcquireWrite ∧ g.TakesTurns (some k.task) ks
  | some holder, k :: ks =>
    g.kindOf? k = some .lockReleaseWrite ∧ k.task = holder ∧ g.TakesTurns none ks

/-- The location of a lock: an event of a lock has it, or a task waits for it. -/
def IsLock (g : Graph) (loc : Location) : Prop :=
  (∃ k e, g.event? k = some e ∧ e.kind.isLock = true ∧ e.location = loc) ∨ g.waitingFor loc ≠ []

/-- **The discipline of locks.** -/
structure Disciplined (g : Graph) : Prop where
  /-- The chain of a lock is the first event and turns at the lock. -/
  turns : ∀ {loc}, g.IsLock loc → ∃ ks, g.chain loc = .init :: ks ∧ g.TakesTurns none ks
  /-- The read of an acquisition sees what stands before the acquisition in the chain. -/
  source : ∀ {k e}, g.event? k = some e → e.kind = .lockAcquireRead →
    ∃ a, [a, k.next] <:+: g.chain e.location ∧ ∀ b, g.In .readsFrom b k ↔ b = a
  /-- No task is listed twice. -/
  nodup : ∀ loc, (g.waitingFor loc).Nodup
  /-- Waiting tasks are blocked just while the lock is held. -/
  blocked : ∀ {loc task}, task ∈ g.waitingFor loc → (g.isBlocked task = true ↔ g.Held loc)

/-- Whether a task that waits for a lock is blocked although the lock is free. -/
def stallsAt (g : Graph) (loc : Location) : Bool :=
  (g.waitingFor loc).any fun task =>
    g.isBlocked task && g.kindOf? (g.lastWrite loc) != some .lockAcquireWrite

theorem Disciplined.not_stallsAt {g : Graph} (h : g.Disciplined) (loc : Location) :
    g.stallsAt loc = false := by
  rw [stallsAt, List.any_eq_false]
  intro task htask hstall
  obtain ⟨hblocked, hfree⟩ := Bool.and_eq_true_iff.mp hstall
  exact bne_iff_ne.mp hfree ((h.blocked htask).mp hblocked)

end Graph

namespace Program

/-- Whether the run with a number passes a state with a property. -/
def passesAt (test : Run → Bool) (fuel : Nat) (p : Program) (policy : Policy) (seed : UInt64)
    (n : Nat) : Bool :=
  (Search.preparedAt? fuel p (Search.everything policy seed) .empty n).any fun s =>
    Run.passesAny test fuel (s.run.start n)

theorem exists_passes_of_passesAt {test : Run → Bool} {fuel n : Nat} {p : Program} {policy : Policy}
    {seed : UInt64} (h : passesAt test fuel p policy seed n = true) :
    ∃ r, p.Passes policy seed n r ∧ test r = true := by
  obtain ⟨s, hs, h⟩ := (Option.any_eq_true _ _).mp h
  obtain ⟨r, hr, htest⟩ := Run.exists_passes_of_passesAny h
  exact ⟨r, ⟨s, Search.prepares_of_preparedAt? hs, hr⟩, htest⟩

/-- A task does an atomic update and takes two locks for good, while the main task holds one of them
to write what the update may see and then does an update of its own. -/
def stalledUpdate : Program :=
  ofInstructions "stalled_update" ["x"]
    [("main", [.spawn "e", .spawn "d", .lock "m", .write "x" (.literal (.number (.ofInt 2))),
      .unlock "m",
        .fetchAdd "x" "" one]),
     ("e", [.lock "l", .unlock "l", .write "x" one]),
     ("d", [.fetchAdd "x" "" one, .lock "l", .lock "m"])]

set_option maxRecDepth 100000 in
/-- **The discipline of locks is not always kept.** In the sixth run of the search for
`Interleaving.Program.stalledUpdate` the update of the main task revisits the one of task `d`, which
has lost its second half, and blocks `d` while it waits for a lock that is free. -/
theorem not_disciplined_of_update :
    ¬ ∀ (p : Program) (policy : Policy) (seed : UInt64) (n : Nat) (r : Run), p.isValid = true →
      p.Passes policy seed n r → r.scheduler.engine.graph.Disciplined := by
  intro h
  have hstalls : passesAt (fun r => r.scheduler.engine.graph.stallsAt 65539) 60 stalledUpdate
      .random 6 5 = true := by
    decide +kernel
  obtain ⟨r, hr, hbad⟩ := exists_passes_of_passesAt hstalls
  have hgood := (h stalledUpdate .random 6 5 r (by decide +kernel) hr).not_stallsAt 65539
  rw [hbad] at hgood
  cases hgood

end Program

end Interleaving
