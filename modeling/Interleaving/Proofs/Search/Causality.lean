import Interleaving.Proofs.Graph.Clocks
import Interleaving.Proofs.Search.Verdict

/-!
# Clocks along a search

The clocks of a graph are **exact** when comparing two of them decides whether a path leads from one
event to the other one, and computing them anew changes nothing (`Interleaving.Graph.Exact`).
Recording puts an edge at a time and merges clocks on the way, the processors of alternatives swap
and drop edges and compute clocks anew only where they take the past of an event away.

A search **passes** a state of a run when the run stands so between two of its turns
(`Interleaving.Program.Passes`); what was observed in the turns before has been processed then. One
would expect that the graph is exact in all of these states. It is not
(`Interleaving.Program.not_exact_of_join`). An atomic update that has lost its second half, as in
`Interleaving.Program.halfUpdate`, is an exclusive read that may still be revisited when its task
has come to its end. The revisit blocks the task, so a label stands behind the last event of the
task, and a join of the task takes the label for its end: it gets an edge from a node that is no
event and has no clock.
-/

namespace Interleaving

namespace Graph

/-- **The clocks of a graph are exact**: they decide what happens before, and they are what
computing them anew gives. -/
structure Exact (g : Graph) : Prop where
  happensBefore_iff : ∀ a ∈ g.order, ∀ b ∈ g.order, g.happensBefore a b = true ↔ g.Past a b
  recomputed : ∃ g', recomputeClocks g = .ok () g' ∧
    ∀ k ∈ g.order, (g.clockOf k).equal (g'.clockOf k) = true

/-- Whether computing the clocks anew fails. -/
def isCorrupt (g : Graph) : Bool :=
  match recomputeClocks g with
  | .ok _ _ => false
  | .error _ _ => true

theorem Exact.not_isCorrupt {g : Graph} (h : g.Exact) : g.isCorrupt = false := by
  obtain ⟨g', hg', -⟩ := h.recomputed
  rw [isCorrupt, hg']

end Graph

/-! ### The states that a search passes -/

/-- A run that stands between two turns, and the states between the turns to come. -/
inductive Run.Passes : Run.Progress × Run → Run → Prop
  | here (r : Run) : Passes (.going, r) r
  | later {r r' : Run} (h : Passes r.advance r') : Passes (.going, r) r'

namespace Search

/-- A search has prepared the run with a number and stands so. -/
inductive Prepares (p : Program) (cfg : Config) (files : Files) : Nat → Search → Prop
  | first {fuel : Nat} {s : Search} {outcome : Outcome} {scheduler : Scheduler}
      (hs : prepare p cfg files = .ok s)
      (hstart : s.run.scheduler.startRun? fuel 0 = some (.ok outcome, scheduler))
      (hgo : outcome ≠ .haltSearch) :
      Prepares p cfg files 0 { s with run := { s.run with scheduler } }
  | next {fuel n : Nat} {s s' : Search} {outcome : Outcome} {scheduler : Scheduler}
      (h : Prepares p cfg files n s) (hrun : doRun? cfg fuel s n = some (.ok s'))
      (hstart : s'.run.scheduler.startRun? fuel (n + 1) = some (.ok outcome, scheduler))
      (hgo : outcome ≠ .haltSearch) :
      Prepares p cfg files (n + 1) { s' with run := { s'.run with scheduler } }

/-- The search after the preparation of its next run; nothing when there is none. -/
def prepared? (fuel n : Nat) (s : Search) : Option Search :=
  match s.run.scheduler.startRun? fuel n with
  | some (.ok outcome, scheduler) =>
    if outcome = .haltSearch then none else some { s with run := { s.run with scheduler } }
  | _ => none

/-- The search after the preparation of the run with a number. -/
def preparedAt? (fuel : Nat) (p : Program) (cfg : Config) (files : Files) : Nat → Option Search
  | 0 =>
    match prepare p cfg files with
    | .ok s => prepared? fuel 0 s
    | .error _ => none
  | n + 1 =>
    match (preparedAt? fuel p cfg files n).bind fun s => doRun? cfg fuel s n with
    | some (.ok s) => prepared? fuel (n + 1) s
    | _ => none

theorem prepared?_eq_some {fuel n : Nat} {s t : Search} (h : prepared? fuel n s = some t) :
    ∃ outcome scheduler, s.run.scheduler.startRun? fuel n = some (.ok outcome, scheduler) ∧
      outcome ≠ .haltSearch ∧ t = { s with run := { s.run with scheduler } } := by
  unfold prepared? at h
  split at h
  · rename_i outcome scheduler hstart
    split at h
    · cases h
    · rename_i hgo
      cases h
      exact ⟨outcome, scheduler, hstart, hgo, rfl⟩
  · cases h

/-- Preparing one run after the other shows which searches are prepared. -/
theorem prepares_of_preparedAt? {fuel n : Nat} {p : Program} {cfg : Config} {files : Files}
    {s : Search} (h : preparedAt? fuel p cfg files n = some s) : Prepares p cfg files n s := by
  induction n generalizing s with
  | zero =>
    rw [preparedAt?] at h
    split at h
    · rename_i s₀ hs
      obtain ⟨outcome, scheduler, hstart, hgo, rfl⟩ := prepared?_eq_some h
      exact .first hs hstart hgo
    · cases h
  | succ n ih =>
    rw [preparedAt?] at h
    split at h
    · rename_i s₁ hrun
      obtain ⟨s₀, hs, hrun⟩ := Option.bind_eq_some_iff.mp hrun
      obtain ⟨outcome, scheduler, hstart, hgo, rfl⟩ := prepared?_eq_some h
      exact .next (ih hs) hrun hstart hgo
    · cases h

end Search

/-- Whether a run passes a state with a property within a number of turns. -/
def Run.passesAny (test : Run → Bool) : Nat → Run.Progress × Run → Bool
  | fuel + 1, (.going, r) => test r || passesAny test fuel r.advance
  | _, _ => false

/-- Following the turns of a run shows which states it passes. -/
theorem Run.exists_passes_of_passesAny {test : Run → Bool} {fuel : Nat} {x : Run.Progress × Run}
    (h : Run.passesAny test fuel x = true) : ∃ r, Run.Passes x r ∧ test r = true := by
  fun_induction Run.passesAny test fuel x with
  | case1 fuel r ih =>
    rcases Bool.or_eq_true_iff.mp h with h | h
    · exact ⟨r, .here r, h⟩
    · obtain ⟨r', hr', htest⟩ := ih h
      exact ⟨r', .later hr', htest⟩
  | case2 => cases h

namespace Program

/-- The search of everything, with a policy, passes a state of the run with a number. -/
def Passes (p : Program) (policy : Policy) (seed : UInt64) (n : Nat) (r : Run) : Prop :=
  ∃ s, Search.Prepares p (Search.everything policy seed) .empty n s ∧ Run.Passes (s.run.start n) r

/-- Whether the graph is corrupt in some state that the run with a number passes. -/
def corruptsAt (fuel : Nat) (p : Program) (n : Nat) : Bool :=
  (Search.preparedAt? fuel p (Search.everything .fifo 0) .empty n).any fun s =>
    Run.passesAny (fun r => r.scheduler.engine.graph.isCorrupt) fuel (s.run.start n)

theorem exists_passes_of_corruptsAt {fuel n : Nat} {p : Program} (h : corruptsAt fuel p n = true) :
    ∃ r, p.Passes .fifo 0 n r ∧ r.scheduler.engine.graph.isCorrupt = true := by
  obtain ⟨s, hs, h⟩ := (Option.any_eq_true _ _).mp h
  obtain ⟨r, hr, hcorrupt⟩ := Run.exists_passes_of_passesAny h
  exact ⟨r, ⟨s, Search.prepares_of_preparedAt? hs, hr⟩, hcorrupt⟩

/-- A task does an atomic update and takes a lock for good, two others write, and the main task
joins it. -/
def joinedUpdate : Program :=
  ofInstructions "joined_update" ["x"]
    [("main", [.spawn "e", .spawn "d", .spawn "h", .join "h", .join "d"]),
     ("e", [.lock "m", .unlock "m", .write "x" one]),
     ("d", [.fetchAdd "x" "" one, .lock "m"]),
     ("h", [.write "x" (.literal (.number (.ofInt 2))), .fetchAdd "x" "" one])]

set_option maxRecDepth 100000 in
/-- **The clocks are not always exact.** In the fifth run of the search for
`Interleaving.Program.joinedUpdate` the join of task `d` gets an edge from a blocking label, so the
clocks cannot be computed anew. -/
theorem not_exact_of_join :
    ¬ ∀ (p : Program) (policy : Policy) (seed : UInt64) (n : Nat) (r : Run), p.isValid = true →
      p.Passes policy seed n r → r.scheduler.engine.graph.Exact := by
  intro h
  have hcorrupt : corruptsAt 60 joinedUpdate 4 = true := by decide +kernel
  obtain ⟨r, hr, hbad⟩ := exists_passes_of_corruptsAt hcorrupt
  have hgood := (h joinedUpdate .fifo 0 4 r (by decide +kernel) hr).not_isCorrupt
  rw [hbad] at hgood
  cases hgood

end Program

end Interleaving
