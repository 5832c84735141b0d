import Interleaving.Search.Basic

/-!
# The bound of a search

A search has a bound on the number of its runs, on the alternatives that are tried before a run and
on the turns of a run (`Interleaving.Search.run?`). The bound decides only whether there is an
answer: **whatever a search finds within one bound it finds within every greater one**
(`Interleaving.Search.run?_mono`), so two bounds that suffice give the same answer
(`Interleaving.Search.run?_unique`).

`Interleaving.Program.Concludes` speaks about the answer without a bound.
-/

namespace Interleaving

/-- The turns of a run do not depend on the bound, once it suffices. -/
theorem Run.finish_mono {fuel fuel' : Nat} (hle : fuel ≤ fuel') {x y : Run.Progress × Run}
    (h : Run.finish fuel x = some y) : Run.finish fuel' x = some y := by
  induction fuel generalizing fuel' x with
  | zero => cases h
  | succ fuel ih =>
    obtain ⟨fuel', rfl⟩ : ∃ n, fuel' = n + 1 := ⟨fuel' - 1, by omega⟩
    obtain ⟨progress, r⟩ := x
    cases progress with
    | going => exact ih (Nat.le_of_succ_le_succ hle) h
    | ended status message => exact h
    | failed e => exact h

namespace Engine

/-- The alternative that is chosen does not depend on the bound, once it suffices. -/
theorem select?_mono {fuel fuel' : Nat} (hle : fuel ≤ fuel') {a : Engine}
    {r : Except Error Outcome × Engine} (h : select? fuel a = some r) :
    select? fuel' a = some r := by
  induction fuel generalizing fuel' a with
  | zero => cases h
  | succ fuel ih =>
    obtain ⟨fuel', rfl⟩ : ∃ n, fuel' = n + 1 := ⟨fuel' - 1, by omega⟩
    rw [select?] at h ⊢
    split at h
    · exact h
    · -- only an alternative that came to nothing sends the search on to the next one
      dsimp only at h ⊢
      split at h
      · exact h
      · exact ih (Nat.le_of_succ_le_succ hle) h
      · exact h

/-- How a run is prepared does not depend on the bound, once it suffices. -/
theorem startRun?_mono {fuel fuel' : Nat} (hle : fuel ≤ fuel') {a : Engine} {n : Int}
    {r : Except Error Outcome × Engine} (h : a.startRun? fuel n = some r) :
    a.startRun? fuel' n = some r := by
  rw [startRun?] at h ⊢
  by_cases hn : n = 0
  · rwa [if_pos hn] at h ⊢
  · rw [if_neg hn] at h ⊢
    by_cases hempty : a.agenda.items.isEmpty = true
    · rwa [if_pos hempty] at h ⊢
    · rw [if_neg hempty] at h ⊢
      exact select?_mono hle h

end Engine

/-- How the scheduler prepares a run does not depend on the bound, once it suffices. -/
theorem Scheduler.startRun?_mono {fuel fuel' : Nat} (hle : fuel ≤ fuel') {s : Scheduler} {n : Int}
    {r : Except Scheduler.Error Outcome × Scheduler} (h : s.startRun? fuel n = some r) :
    s.startRun? fuel' n = some r := by
  rw [Scheduler.startRun?] at h ⊢
  dsimp only at h ⊢
  by_cases hr : s.replaying = true
  · rwa [if_pos hr] at h ⊢
  · rw [if_neg hr] at h ⊢
    obtain ⟨prepared, hp, rfl⟩ := Option.map_eq_some_iff.mp h
    rw [Engine.startRun?_mono hle hp]
    rfl

namespace Search

/-- A run does not depend on the bound, once it suffices. -/
theorem doRun?_mono {cfg : Config} {fuel fuel' : Nat} (hle : fuel ≤ fuel') {s : Search} {n : Nat}
    {r : Except Finished Search} (h : doRun? cfg fuel s n = some r) :
    doRun? cfg fuel' s n = some r := by
  obtain ⟨⟨progress, run⟩, hf, hrest⟩ := Option.bind_eq_some_iff.mp h
  exact Option.bind_eq_some_iff.mpr ⟨(progress, run), Run.finish_mono hle hf, hrest⟩

/-- The runs of a search do not depend on the bound, once it suffices. -/
theorem loop_mono {cfg : Config} {fuel fuel' : Nat} (hle : fuel ≤ fuel') {n : Nat} {s : Search}
    {f : Finished} (h : loop cfg fuel n s = some f) : loop cfg fuel' n s = some f := by
  induction fuel generalizing fuel' n s with
  | zero => cases h
  | succ fuel ih =>
    obtain ⟨fuel', rfl⟩ : ∃ n, fuel' = n + 1 := ⟨fuel' - 1, by omega⟩
    have hle' : fuel ≤ fuel' := Nat.le_of_succ_le_succ hle
    rw [loop] at h ⊢
    split
    · rename_i hlimit
      rwa [if_pos hlimit] at h
    · rename_i hlimit
      rw [if_neg hlimit] at h
      split
      · rename_i hcancel
        rwa [if_pos hcancel] at h
      · rename_i hcancel
        rw [if_neg hcancel] at h
        obtain ⟨⟨outcome, scheduler⟩, hstart, h⟩ := Option.bind_eq_some_iff.mp h
        refine Option.bind_eq_some_iff.mpr
          ⟨(outcome, scheduler), Scheduler.startRun?_mono hle' hstart, ?_⟩
        dsimp only at h ⊢
        split at h
        · exact h
        · exact h
        · obtain ⟨done, hrun, h⟩ := Option.bind_eq_some_iff.mp h
          refine Option.bind_eq_some_iff.mpr ⟨done, doRun?_mono hle' hrun, ?_⟩
          cases done with
          | error finished => exact h
          | ok s => exact ih hle' h

/-- **A search finds the same within every greater bound.** -/
theorem run?_mono {fuel fuel' : Nat} (hle : fuel ≤ fuel') {p : Program} {cfg : Config}
    {files : Files} {f : Finished} (h : run? fuel p cfg files = some f) :
    run? fuel' p cfg files = some f := by
  rw [run?] at h ⊢
  split at h
  · exact h
  · exact loop_mono hle h

/-- Two bounds that suffice give the same answer. -/
theorem run?_unique {fuel fuel' : Nat} {p : Program} {cfg : Config} {files : Files}
    {f f' : Finished} (h : run? fuel p cfg files = some f)
    (h' : run? fuel' p cfg files = some f') : f = f' := by
  rcases Nat.le_total fuel fuel' with hle | hle
  · rw [run?_mono hle h] at h'
    exact Option.some.inj h'
  · rw [run?_mono hle h'] at h
    exact (Option.some.inj h).symm

/-- A search of everything there is to explore, without a limit on the runs and without stopping at
the first error. -/
def everything (policy : Policy) (seed : UInt64) : Config :=
  { maxIterations := 0, stopOnBug := false, tracePath := "", replayPath := "",
    scheduler := { policy := policy.name, seed, debugDir := "" }, cancelAfter := none }

end Search

namespace Program

/-- The search of everything, with a policy, comes to an end with an answer. -/
def Concludes (p : Program) (policy : Policy) (seed : UInt64) (f : Search.Finished) : Prop :=
  ∃ fuel, Search.run? fuel p (Search.everything policy seed) .empty = some f

/-- A search has at most one answer. -/
theorem Concludes.unique {p : Program} {policy : Policy} {seed : UInt64} {f f' : Search.Finished}
    (h : p.Concludes policy seed f) (h' : p.Concludes policy seed f') : f = f' := by
  obtain ⟨fuel, h⟩ := h
  obtain ⟨fuel', h'⟩ := h'
  exact Search.run?_unique h h'

end Program

end Interleaving
