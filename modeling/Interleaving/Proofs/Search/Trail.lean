import Interleaving.Proofs.Search.Bound

/-!
# The trail of a search

A search publishes a line about each of its runs and goes on; the run itself is forgotten. The
**trail** of a search keeps the runs: for each of them how it ended, with the scheduler and the
machine as they were then (`Interleaving.Search.Ending`). So one can ask which steps a run took and
which graph it left.

`Interleaving.Search.trail?` is the search with its trail. It goes the same way as the search itself
(`Interleaving.Search.map_snd_trail?`), within every bound that suffices
(`Interleaving.Search.trail?_mono`), and what it keeps of the runs is what is published about them
(`Interleaving.Search.published_of_trail?`).
-/

namespace Interleaving

/-- A run that came to its end: how, and the scheduler and the machine as they were then. -/
structure Search.Ending where
  status : Status
  run : Run

namespace Search

namespace Ending

/-- The graph that a run left. -/
def graph (e : Ending) : Graph := e.run.scheduler.engine.graph

/-- The directives that a run followed. -/
def schedule (e : Ending) : List Directive := e.run.scheduler.executed

end Ending

/-- The end of the run with a number, if it comes to one. -/
def ending? (fuel : Nat) (s : Search) (n : Nat) : Option Ending :=
  match Run.finish fuel (s.run.start n) with
  | some (.ended status _, run) => some ⟨status, run⟩
  | _ => none

/-- Runs from the one with a number on, up to the end of the search, with the ends of the runs. -/
def trailFrom? (cfg : Config) : Nat → Nat → Search → Option (List Ending × Finished)
  | 0, _, _ => none
  | fuel + 1, n, s =>
    if cfg.maxIterations ≠ 0 && cfg.maxIterations ≤ n then some ([], s.conclude)
    else if cfg.cancelAfter.any (fun limit => decide (limit ≤ n)) then
      some ([], s.breakOff .canceled)
    else do
      let (outcome, scheduler) ← s.run.scheduler.startRun? fuel n
      let s := { s with run := { s.run with scheduler } }
      match outcome with
      | .error e => return ([], s.breakOff (.scheduler e))
      | .ok .haltSearch =>
        return ([], { s with result := { s.result with complete := true } }.conclude)
      | .ok _ =>
        let ended := (ending? fuel s n).toList
        match ← doRun? cfg fuel s n with
        | .error finished => return (ended, finished)
        | .ok s => (trailFrom? cfg fuel (n + 1) s).map fun r => (ended ++ r.1, r.2)

/-- A whole search with the ends of its runs. -/
def trail? (fuel : Nat) (p : Program) (cfg : Config) (files : Files) :
    Option (List Ending × Finished) :=
  match prepare p cfg files with
  | .error finished => some ([], finished)
  | .ok s => trailFrom? cfg fuel 0 s

/-! ### The trail and the search -/

theorem map_snd_trailFrom? (cfg : Config) (fuel n : Nat) (s : Search) :
    (trailFrom? cfg fuel n s).map (·.2) = loop cfg fuel n s := by
  induction fuel generalizing n s with
  | zero => rfl
  | succ fuel ih =>
    rw [trailFrom?, loop]
    split
    · rfl
    · split
      · rfl
      · simp only [Option.bind_eq_bind, Option.map_bind]
        refine Option.bind_congr ?_
        rintro ⟨outcome, scheduler⟩ -
        rcases outcome with e | outcome
        · rfl
        · cases outcome with
          | haltSearch => rfl
          | _ =>
            simp only [Function.comp, Option.map_bind]
            refine Option.bind_congr ?_
            rintro done -
            cases done with
            | error finished => rfl
            | ok s' =>
              refine Eq.trans ?_ (ih (n + 1) s')
              exact Option.map_map ..

/-- **The trail goes the way of the search.** -/
theorem map_snd_trail? (fuel : Nat) (p : Program) (cfg : Config) (files : Files) :
    (trail? fuel p cfg files).map (·.2) = run? fuel p cfg files := by
  unfold trail? run?
  cases prepare p cfg files with
  | error finished => rfl
  | ok s => exact map_snd_trailFrom? cfg fuel 0 s

/-! ### Bounds -/

/-- The end of a run does not depend on the bound, once it suffices. -/
theorem ending?_mono {cfg : Config} {fuel fuel' : Nat} (hle : fuel ≤ fuel') {s : Search} {n : Nat}
    {r : Except Finished Search} (h : doRun? cfg fuel s n = some r) :
    ending? fuel' s n = ending? fuel s n := by
  obtain ⟨⟨progress, run⟩, hf, -⟩ := Option.bind_eq_some_iff.mp h
  unfold ending?
  rw [hf, Run.finish_mono hle hf]

theorem trailFrom?_mono {cfg : Config} {fuel fuel' : Nat} (hle : fuel ≤ fuel') {n : Nat}
    {s : Search} {r : List Ending × Finished} (h : trailFrom? cfg fuel n s = some r) :
    trailFrom? cfg fuel' n s = some r := by
  induction fuel generalizing fuel' n s r with
  | zero => cases h
  | succ fuel ih =>
    obtain ⟨fuel', rfl⟩ : ∃ n, fuel' = n + 1 := ⟨fuel' - 1, by omega⟩
    have hle' : fuel ≤ fuel' := Nat.le_of_succ_le_succ hle
    rw [trailFrom?] at h ⊢
    by_cases hlimit : (decide (cfg.maxIterations ≠ 0) && decide (cfg.maxIterations ≤ n)) = true
    · rwa [if_pos hlimit] at h ⊢
    · rw [if_neg hlimit] at h ⊢
      by_cases hcancel : cfg.cancelAfter.any (fun limit => decide (limit ≤ n)) = true
      · rwa [if_pos hcancel] at h ⊢
      · rw [if_neg hcancel] at h ⊢
        obtain ⟨⟨outcome, scheduler⟩, hstart, h⟩ := Option.bind_eq_some_iff.mp h
        refine Option.bind_eq_some_iff.mpr
          ⟨(outcome, scheduler), Scheduler.startRun?_mono hle' hstart, ?_⟩
        dsimp only at h ⊢
        split at h
        · exact h
        · exact h
        · obtain ⟨done, hrun, h⟩ := Option.bind_eq_some_iff.mp h
          refine Option.bind_eq_some_iff.mpr ⟨done, doRun?_mono hle' hrun, ?_⟩
          rw [ending?_mono hle' hrun]
          cases done with
          | error finished => exact h
          | ok s' =>
            obtain ⟨rest, hrest, rfl⟩ := Option.map_eq_some_iff.mp h
            exact Option.map_eq_some_iff.mpr ⟨rest, ih hle' hrest, rfl⟩

/-- **A search leaves the same trail within every greater bound.** -/
theorem trail?_mono {fuel fuel' : Nat} (hle : fuel ≤ fuel') {p : Program} {cfg : Config}
    {files : Files} {r : List Ending × Finished} (h : trail? fuel p cfg files = some r) :
    trail? fuel' p cfg files = some r := by
  rw [trail?] at h ⊢
  split at h
  · exact h
  · exact trailFrom?_mono hle h

/-! ### What is published -/

/-- What is published about a run, as far as it is about the run alone. -/
def Iteration.line (it : Iteration) : Int × Status × String := (it.index, it.status, it.graph)

/-- What is to be published about a run with a number. -/
def Ending.line (n : Nat) (e : Ending) : Int × Status × String := (n, e.status, e.graph.json false)

/-- The lines that a search has published. -/
def lines (s : Search) : List (Int × Status × String) := s.published.map Iteration.line

theorem lines_publish (s : Search) (n : Nat) (status : Status) :
    (s.publish n status).lines = s.lines ++ [Ending.line n ⟨status, s.run⟩] := by
  cases hr : s.run.scheduler.replaying <;>
    simp [publish, recordGraph, hr, lines, Iteration.line, Ending.line, Ending.graph]

/-- Closing a run publishes it. -/
theorem lines_closeRun (s : Search) (n : Nat) (status : Status) :
    (s.closeRun n status).2.lines = s.lines ++ [Ending.line n ⟨status, s.run⟩] := by
  unfold closeRun
  dsimp only
  split
  · exact lines_publish { s with result := s.result.count status } n status
  · exact lines_publish { s with result := s.result.count status } n status

theorem lines_noteBug (cfg : Config) (s : Search) (n : Nat) (message : String) :
    (s.noteBug cfg n message).2.lines = s.lines := by
  unfold noteBug
  dsimp only
  split
  · split <;> rfl
  · rfl

/-- The lines of a search that is over or goes on. -/
def linesAfter : Except Finished Search → List (Int × Status × String)
  | .error finished => finished.search.lines
  | .ok s => s.lines

/-- A run that comes to its end is published, one that fails is not. -/
theorem lines_doRun? {cfg : Config} {fuel n : Nat} {s : Search} {r : Except Finished Search}
    (h : doRun? cfg fuel s n = some r) :
    linesAfter r = s.lines ++ (ending? fuel s n).toList.map (Ending.line n) := by
  obtain ⟨⟨progress, run⟩, hf, hrest⟩ := Option.bind_eq_some_iff.mp h
  unfold ending?
  rw [hf]
  dsimp only at hrest
  cases progress with
  | going => cases hrest
  | failed e =>
    cases hrest
    simp [linesAfter, breakOff, lines]
  | ended status message =>
    have hclosed := lines_closeRun { s with run } n status
    have hnoted := lines_noteBug cfg ({ s with run }.closeRun n status).2 n message
    dsimp only at hrest
    split at hrest
    · cases hrest
      exact hclosed
    · split at hrest
      · split at hrest
        · cases hrest
          exact hnoted.trans hclosed
        · cases hrest
          split
          · exact hnoted.trans hclosed
          · exact hnoted.trans hclosed
      · cases hrest
        exact hclosed

/-- The search goes on only after a run that came to its end. -/
theorem exists_ending? {cfg : Config} {fuel n : Nat} {s s' : Search}
    (h : doRun? cfg fuel s n = some (.ok s')) : ∃ e, ending? fuel s n = some e := by
  obtain ⟨⟨progress, run⟩, hf, hrest⟩ := Option.bind_eq_some_iff.mp h
  unfold ending?
  rw [hf]
  cases progress with
  | going => cases hrest
  | failed e => cases hrest
  | ended status message => exact ⟨⟨status, run⟩, rfl⟩

theorem lines_of_trailFrom? {cfg : Config} {fuel n : Nat} {s : Search} {es : List Ending}
    {f : Finished} (h : trailFrom? cfg fuel n s = some (es, f)) :
    f.search.lines = s.lines ++ (es.zipIdx n).map fun (e, i) => e.line i := by
  induction fuel generalizing n s es f with
  | zero => cases h
  | succ fuel ih =>
    rw [trailFrom?] at h
    split at h
    · cases h
      simp [conclude, lines]
    · split at h
      · cases h
        simp [breakOff, lines]
      · obtain ⟨⟨outcome, scheduler⟩, -, h⟩ := Option.bind_eq_some_iff.mp h
        dsimp only at h
        split at h
        · cases h
          simp [breakOff, lines]
        · cases h
          simp [conclude, lines]
        · obtain ⟨done, hrun, h⟩ := Option.bind_eq_some_iff.mp h
          have hlines := lines_doRun? hrun
          cases done with
          | error finished =>
            cases h
            refine hlines.trans ?_
            cases ending? fuel { s with run := { s.run with scheduler } } n <;> rfl
          | ok s' =>
            obtain ⟨⟨rest, f'⟩, hrest, heq⟩ := Option.map_eq_some_iff.mp h
            obtain ⟨e, he⟩ := exists_ending? hrun
            cases heq
            rw [ih hrest, show s'.lines = _ from hlines, he]
            simp [lines]

/-- **The trail of a search is what it publishes**: in the order of their numbers the statuses of
the runs and the graphs that they left. -/
theorem published_of_trail? {fuel : Nat} {p : Program} {cfg : Config} {files : Files}
    {es : List Ending} {f : Finished} (h : trail? fuel p cfg files = some (es, f)) :
    f.search.lines = es.zipIdx.map fun (e, i) => e.line i := by
  have hnew : ∀ scheduler, (new p scheduler).lines = [] := fun _ => rfl
  unfold trail? prepare at h
  split at h
  · rename_i finished hprepare
    cases h
    split at hprepare
    · cases hprepare
      rfl
    · dsimp only at hprepare
      split at hprepare
      · cases hprepare
        rfl
      · split at hprepare
        · cases hprepare
        · cases hprepare
          rfl
  · rename_i s hprepare
    have hs : s.lines = [] := by
      split at hprepare
      · cases hprepare
      · dsimp only at hprepare
        split at hprepare
        · cases hprepare
        · split at hprepare
          · cases hprepare
            exact hnew _
          · cases hprepare
    rw [lines_of_trailFrom? h, hs, List.nil_append]

end Search

namespace Program

/-- The search of everything, with a policy, comes to an end with an answer and leaves a trail. -/
def Traverses (p : Program) (policy : Policy) (seed : UInt64) (trail : List Search.Ending)
    (f : Search.Finished) : Prop :=
  ∃ fuel, Search.trail? fuel p (Search.everything policy seed) .empty = some (trail, f)

/-- A search leaves at most one trail. -/
theorem Traverses.unique {p : Program} {policy : Policy} {seed : UInt64}
    {trail trail' : List Search.Ending} {f f' : Search.Finished}
    (h : p.Traverses policy seed trail f) (h' : p.Traverses policy seed trail' f') :
    trail = trail' ∧ f = f' := by
  obtain ⟨fuel, h⟩ := h
  obtain ⟨fuel', h'⟩ := h'
  have h := Search.trail?_mono (Nat.le_max_left fuel fuel') h
  have h' := Search.trail?_mono (Nat.le_max_right fuel fuel') h'
  rw [h] at h'
  cases h'
  exact ⟨rfl, rfl⟩

end Program

end Interleaving
