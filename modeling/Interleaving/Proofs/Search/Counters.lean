import Interleaving.Proofs.Exploration.Counters
import Interleaving.Proofs.Search.Causality

/-!
# Counters along a search

Within a run a search changes its engine in three ways: the engine processes events, gives out
directives, and drops what belongs to the run at its end. So **a property of engines that these keep
lasts through a run** (`Interleaving.Engine.Lasts`, `Interleaving.Engine.Lasts.doRun?`).

That the counters of an exploration balance is such a property, and preparing the next run counts
that run. Therefore they balance whenever a search stands between two calls
(`Interleaving.Search.Boundary`), and at its end (`Interleaving.Search.counters_balance`).
-/

namespace Interleaving

/-- The search as a run has left it. -/
def Search.after : Except Search.Finished Search → Search
  | .ok s => s
  | .error f => f.search

/-! ### Properties that last through a run -/

/-- A property of engines that lasts through a run. -/
structure Engine.Lasts (P : Engine → Prop) : Prop where
  update : ∀ {a : Engine} (e : Event), P a → P (a.update e).2
  next : ∀ {a : Engine}, P a → P a.nextDirective.2
  reset : ∀ {a : Engine}, P a → P a.resetRun

namespace Engine.Lasts

variable {P : Engine → Prop} {s : Scheduler} {r : Run} {x y : Run.Progress × Run} {fuel n : Nat}

/-- Events are told to the engine one after the other. -/
theorem updateEvents (h : Lasts P) (hs : P s.engine) (es : List Event) :
    P (s.updateEvents es).2.engine := by
  induction es generalizing s with
  | nil => exact hs
  | cons e more ih =>
    unfold Scheduler.updateEvents
    split
    · dsimp only
      split
      · exact ih hs
      · exact hs
    · have hnext := h.update e hs
      dsimp only
      split
      · exact hnext
      · split
        · exact ih hnext
        · exact hnext

/-- An observation is told to the engine as its events. -/
theorem schedulerUpdate (h : Lasts P) (hs : P s.engine) (o : Observation) :
    P (s.update o).2.engine := by
  unfold Scheduler.update
  split
  · exact hs
  · exact h.updateEvents hs _

theorem pick (hs : P s.engine) (active : List Int) : P (s.pick active).2.engine := by
  unfold Scheduler.pick
  split
  · exact hs
  · split <;> exact hs

/-- Choosing the next task tells the engine at most once. -/
theorem schedulerNext (h : Lasts P) (hs : P s.engine) (active : List Int) :
    P (s.next active).2.engine := by
  have hchoose : P (s.choose active).2.engine := by
    unfold Scheduler.choose
    split
    · split
      · exact hs
      · exact pick hs active
    · have hnext := h.next hs
      split
      · rename_i heq
        rw [heq] at hnext
        exact hnext
      · rename_i heq
        rw [heq] at hnext
        exact pick hnext active
  unfold Scheduler.next
  split <;> rename_i heq <;> rw [heq] at hchoose <;> exact hchoose

/-- The engine is told of observations until one of them ends the run. -/
theorem tell (h : Lasts P) (hr : P r.scheduler.engine) (ending : Outcome → Bool)
    (os : List Observation) : P (r.tell ending os).2.scheduler.engine := by
  induction os generalizing r with
  | nil => exact hr
  | cons o rest ih =>
    have hone := h.schedulerUpdate hr o
    unfold Run.tell
    split <;> rename_i heq <;> rw [heq] at hone
    · exact hone
    · dsimp only
      split
      · exact hone
      · exact ih hone

theorem start (h : Lasts P) (hr : P r.scheduler.engine) (n : Int) :
    P (r.start n).2.scheduler.engine :=
  h.tell (r := { r with machine := (r.machine.reset n).2 }) hr _ _

theorem close (h : Lasts P) (hr : P r.scheduler.engine) (o : Observation) :
    P (r.close o).2.scheduler.engine := by
  have hone := h.schedulerUpdate hr o
  unfold Run.close
  split <;> rename_i heq <;> rw [heq] at hone <;> exact hone

theorem stepTask (h : Lasts P) (hr : P r.scheduler.engine) (task : Int) :
    P (r.stepTask task).2.scheduler.engine := by
  unfold Run.stepTask
  split
  · exact hr
  · rename_i machine _
    exact h.tell (r := { r with machine }) hr _ _

/-- A run advances by one choice and one step. -/
theorem advance (h : Lasts P) (hr : P r.scheduler.engine) : P r.advance.2.scheduler.engine := by
  have hnext := h.schedulerNext hr r.machine.active
  unfold Run.advance
  dsimp only
  split <;> rename_i heq <;> rw [heq] at hnext
  · unfold Run.follow
    split
    · exact hnext
    · exact hnext
    · exact hnext
    · split
      · exact h.stepTask hnext _
      · exact hnext
  · split
    · exact h.close hnext _
    · split
      · exact h.close hnext _
      · exact hnext

/-- **What every call to the engine keeps lasts to the end of a run.** -/
theorem finish (h : Lasts P) (hx : P x.2.scheduler.engine) (hf : Run.finish fuel x = some y) :
    P y.2.scheduler.engine := by
  induction fuel generalizing x with
  | zero => cases hf
  | succ fuel ih =>
    obtain ⟨progress, r⟩ := x
    cases progress with
    | going => exact ih (h.advance hx) hf
    | ended status message =>
      cases hf
      exact hx
    | failed e =>
      cases hf
      exact hx

theorem dump (hs : P s.engine) {stage : String} {n : Int} {s' : Scheduler}
    (h : s.dump stage n = .ok s') : P s'.engine := by
  unfold Scheduler.dump at h
  dsimp only at h
  split at h
  · cases h
    exact hs
  · cases h

/-- The end of a run is told to the engine. -/
theorem finishRun (h : Lasts P) (hs : P s.engine) (n : Int) (completed : Bool) :
    P (s.finishRun n completed).2.engine := by
  have hreset := h.reset hs
  unfold Scheduler.finishRun
  split
  · exact hs
  · dsimp only
    split
    · exact hreset
    · split
      · exact hreset
      · rename_i hdump
        have hdumped := dump (s := { s with engine := s.engine.resetRun }) hreset hdump
        split
        · exact hdumped
        · split <;> exact hdumped

theorem closeRun {s : Search} (h : Lasts P) (hs : P s.run.scheduler.engine) (n : Int)
    (status : Status) : P (s.closeRun n status).2.run.scheduler.engine := by
  have hpublished :
      P (Search.publish { s with result := s.result.count status } n
        status).run.scheduler.engine := by
    rw [Search.publish_run]
    exact hs
  have hfinished := h.finishRun hpublished n (status = .ok)
  unfold Search.closeRun
  dsimp only
  split <;> exact hfinished

/-- Noting an error leaves the engine alone. -/
theorem noteBug {s : Search} (hs : P s.run.scheduler.engine) (cfg : Search.Config) (n : Int)
    (message : String) : P (s.noteBug cfg n message).2.run.scheduler.engine := by
  unfold Search.noteBug
  dsimp only
  split
  · split
    · exact hs
    · rename_i scheduler hrecord
      obtain ⟨files, rfl⟩ := Scheduler.eq_of_recordTrace hrecord
      exact hs
  · exact hs

/-- **What lasts through a run holds after it.** -/
theorem doRun? {s : Search} {cfg : Search.Config} {done : Except Search.Finished Search}
    (h : Lasts P) (hs : P s.run.scheduler.engine) (hrun : Search.doRun? cfg fuel s n = some done) :
    P (Search.after done).run.scheduler.engine := by
  obtain ⟨⟨progress, run⟩, hfinish, hrest⟩ := Option.bind_eq_some_iff.mp hrun
  have hended := h.finish (h.start hs n) hfinish
  dsimp only at hrest
  cases progress with
  | going => cases hrest
  | failed e =>
    cases hrest
    exact hended
  | ended status message =>
    have hclosed := h.closeRun (s := { s with run }) hended n status
    have hnoted := noteBug hclosed cfg n message
    dsimp only at hrest
    split at hrest
    · cases hrest
      exact hclosed
    · split at hrest
      · split at hrest
        · cases hrest
          exact hnoted
        · cases hrest
          split <;> exact hnoted
      · cases hrest
        exact hclosed

end Engine.Lasts

/-! ### Between runs -/

namespace Search

variable {p : Program} {cfg : Config} {files : Files} {started fuel n : Nat} {s s' : Search}
  {f : Finished} {scheduler : Scheduler} {outcome : Outcome}

/-- A search is over without a failure of the search itself; the program may have shown an error. -/
def Finished.EndsWell (f : Finished) : Prop :=
  f.error = none ∨ ∃ message, f.error = some (.bugFound message)

/-- **A search stands between two calls**, and a number of runs has been started. Before the first
run is prepared nothing has been counted. -/
inductive Boundary (p : Program) (cfg : Config) (files : Files) : Nat → Search → Prop
  /-- A run has been prepared. -/
  | prepared {n : Nat} {s : Search} (h : Prepares p cfg files n s) : Boundary p cfg files (n + 1) s
  /-- A run has been done. -/
  | done {fuel n : Nat} {s s' : Search} (h : Prepares p cfg files n s)
      (hrun : doRun? cfg fuel s n = some (.ok s')) : Boundary p cfg files (n + 1) s'
  /-- A run has been done that showed an error, and one is enough. -/
  | stopped {fuel n : Nat} {s : Search} {f : Finished} (h : Prepares p cfg files n s)
      (hrun : doRun? cfg fuel s n = some (.error f)) (hend : f.EndsWell) :
      Boundary p cfg files (n + 1) f.search
  /-- Nothing is left to explore. -/
  | halted {fuel fuel' n : Nat} {s s' : Search} {scheduler : Scheduler}
      (h : Prepares p cfg files n s) (hrun : doRun? cfg fuel s n = some (.ok s'))
      (hstart : s'.run.scheduler.startRun? fuel' (n + 1) = some (.ok .haltSearch, scheduler)) :
      Boundary p cfg files (n + 1) { s' with run := { s'.run with scheduler } }

/-- A search starts with a fresh engine. -/
theorem engine_of_prepare (hs : prepare p cfg files = .ok s) :
    s.run.scheduler.engine = .initial := by
  unfold prepare at hs
  split at hs
  · cases hs
  · rename_i scheduler hnew
    have hinitial : scheduler.engine = .initial := by
      unfold Scheduler.new at hnew
      dsimp only at hnew
      split at hnew
      · cases hnew
      · split at hnew
        · cases hnew
          rfl
        · split at hnew <;> cases hnew
          rfl
    dsimp only at hs
    split at hs
    · cases hs
    · rename_i loaded hload
      have hloaded : loaded.engine = .initial := by
        split at hload
        · cases hload
          exact hinitial
        · unfold Scheduler.replayTrace at hload
          split at hload
          · cases hload
          · split at hload <;> cases hload
            exact hinitial
      split at hs <;> cases hs
      exact hloaded

/-- Preparing a run prepares the engine, unless a trace is replayed, which is a single run. -/
theorem engine_of_startRun? {s s' : Scheduler} {m : Int}
    (hs : s.startRun? fuel m = some (.ok outcome, s')) :
    (s'.engine = s.engine ∧ (outcome = .haltSearch ∨ m = 0)) ∨
      s.engine.startRun? fuel m = some (.ok outcome, s'.engine) := by
  unfold Scheduler.startRun? at hs
  dsimp only at hs
  split at hs
  · cases hs
    refine Or.inl ⟨rfl, ?_⟩
    split
    · exact Or.inr ‹_›
    · exact Or.inl rfl
  · obtain ⟨⟨answer, engine⟩, hstart, hprepared⟩ := Option.map_eq_some_iff.mp hs
    cases answer with
    | error e => cases hprepared
    | ok outcome' =>
      refine Or.inr ?_
      unfold Scheduler.prepared at hprepared
      dsimp only at hprepared
      split at hprepared
      · split at hprepared
        · rename_i hdump
          cases hprepared
          have hsame :=
            Engine.Lasts.dump (P := (· = engine)) (s := { s with executed := [], engine }) rfl hdump
          rw [hstart, hsame]
        · cases hprepared
      · cases hprepared
        exact hstart

/-- **Every call to the engine keeps its counters balanced.** -/
theorem lasts_balanced (started : Nat) : Engine.Lasts (Engine.Balanced started) :=
  ⟨fun e h => h.update e, Engine.Balanced.nextDirective, Engine.Balanced.resetRun⟩

/-- A run that is prepared after another one is started by what the engine takes off its stack. -/
theorem balanced_of_startRun? {s s' : Scheduler} (h : s.engine.Balanced (n + 1))
    (hs : s.startRun? fuel (n + 1 : Nat) = some (.ok outcome, s')) :
    s'.engine.Balanced (if outcome = .haltSearch then n + 1 else n + 2) := by
  rcases engine_of_startRun? hs with ⟨hsame, hcase⟩ | hstart
  · rw [if_pos (hcase.resolve_right (by omega)), hsame]
    exact h
  · exact h.startRun? (by omega) hstart

/-- At the start of a run the counters are balanced. -/
theorem Prepares.balanced (h : Prepares p cfg files n s) :
    s.run.scheduler.engine.Balanced (n + 1) := by
  induction h with
  | @first fuel s outcome scheduler hs hstart hgo =>
    have hinitial := engine_of_prepare hs
    have hsame : scheduler.engine = s.run.scheduler.engine := by
      rcases engine_of_startRun? hstart with ⟨hsame, -⟩ | hstart
      · exact hsame
      · rw [Engine.startRun?, if_pos rfl] at hstart
        exact (congrArg Prod.snd (Option.some.inj hstart)).symm
    show scheduler.engine.Balanced 1
    rw [hsame, hinitial]
    exact Engine.balanced_initial
  | @next fuel n s s' outcome scheduler h hrun hstart hgo ih =>
    have hdone := (lasts_balanced (n + 1)).doRun? ih hrun
    have hready := balanced_of_startRun? hdone hstart
    rwa [if_neg hgo] at hready

/-- The counters of an exploration balance whenever its search stands between two calls. -/
theorem Boundary.balanced (h : Boundary p cfg files started s) :
    s.run.scheduler.engine.Balanced started := by
  cases h with
  | prepared h => exact h.balanced
  | done h hrun => exact (lasts_balanced _).doRun? h.balanced hrun
  | stopped h hrun _ => exact (lasts_balanced _).doRun? h.balanced hrun
  | halted h hrun hstart =>
    have hdone := (lasts_balanced _).doRun? h.balanced hrun
    exact balanced_of_startRun? hdone hstart

/-! ### Whole searches -/

/-- A search is about to prepare the run with a number: its first one, or one after another run. -/
inductive Waits (p : Program) (cfg : Config) (files : Files) : Nat → Search → Prop
  | first {s : Search} (h : prepare p cfg files = .ok s) : Waits p cfg files 0 s
  | next {fuel n : Nat} {s s' : Search} (h : Prepares p cfg files n s)
      (hrun : doRun? cfg fuel s n = some (.ok s')) : Waits p cfg files (n + 1) s'

theorem Waits.prepares (h : Waits p cfg files n s)
    (hstart : s.run.scheduler.startRun? fuel n = some (.ok outcome, scheduler))
    (hgo : outcome ≠ .haltSearch) :
    Prepares p cfg files n { s with run := { s.run with scheduler } } := by
  cases h with
  | first hs => exact .first hs hstart hgo
  | @next fuel' n _ _ h hrun =>
    have hrun' := doRun?_mono (Nat.le_max_left fuel' fuel) hrun
    have hstart' := Scheduler.startRun?_mono (Nat.le_max_right fuel' fuel) hstart
    exact .next h hrun' (by exact_mod_cast hstart') hgo

/-- The first run is always prepared, so there is a run before a search finds nothing left to
explore. -/
theorem Waits.halted (h : Waits p cfg files n s)
    (hstart : s.run.scheduler.startRun? fuel n = some (.ok .haltSearch, scheduler)) :
    Boundary p cfg files n { s with run := { s.run with scheduler } } := by
  cases h with
  | first hs =>
    unfold Scheduler.startRun? at hstart
    dsimp only at hstart
    split at hstart
    · cases hstart
    · obtain ⟨⟨answer, engine⟩, hanswer, hprepared⟩ := Option.map_eq_some_iff.mp hstart
      cases hanswer
      unfold Scheduler.prepared at hprepared
      dsimp only at hprepared
      repeat' split at hprepared
      all_goals cases hprepared
  | next h hrun => exact .halted h hrun (by exact_mod_cast hstart)

/-- **A search that ends well ends between two calls**, unless it was not to do any run. -/
theorem boundary_of_loop (h : Waits p cfg files n s) (hl : loop cfg fuel n s = some f)
    (hend : f.EndsWell) : (∃ s₀, prepare p cfg files = .ok s₀ ∧ f.search.run = s₀.run) ∨
      ∃ started s', Boundary p cfg files started s' ∧ f.search.run = s'.run := by
  induction fuel generalizing n s with
  | zero => cases hl
  | succ fuel ih =>
    rw [loop] at hl
    split at hl
    · cases hl
      cases h with
      | first hs => exact Or.inl ⟨_, hs, rfl⟩
      | next h hrun => exact Or.inr ⟨_, _, .done h hrun, rfl⟩
    · split at hl
      · cases hl
        rcases hend with hend | ⟨message, hend⟩ <;> cases hend
      · obtain ⟨⟨outcome, scheduler⟩, hstart, hl⟩ := Option.bind_eq_some_iff.mp hl
        dsimp only at hl
        split at hl
        · cases hl
          rcases hend with hend | ⟨message, hend⟩ <;> cases hend
        · cases hl
          exact Or.inr ⟨_, _, h.halted hstart, rfl⟩
        · rename_i hgo
          obtain ⟨done, hrun, hl⟩ := Option.bind_eq_some_iff.mp hl
          have hprepares := h.prepares hstart hgo
          cases done with
          | error finished =>
            cases hl
            exact Or.inr ⟨_, _, .stopped hprepares hrun hend, rfl⟩
          | ok s' => exact ih (.next hprepares hrun) hl

theorem not_endsWell_of_prepare (h : prepare p cfg files = .error f) : ¬f.EndsWell := by
  have hbroken : ∃ s e, f = breakOff s e ∧ ∀ message, e ≠ .bugFound message := by
    unfold prepare at h
    split at h
    · cases h
      exact ⟨_, _, rfl, fun _ => nofun⟩
    · dsimp only at h
      split at h
      · cases h
        exact ⟨_, _, rfl, fun _ => nofun⟩
      · split at h <;> cases h
        exact ⟨_, _, rfl, fun _ => nofun⟩
  obtain ⟨s, e, rfl, he⟩ := hbroken
  rintro (hnone | ⟨message, hsome⟩)
  · cases hnone
  · exact he message (Option.some.inj hsome)

/-- A search that ends without a failure ends before its first run or after some run. -/
theorem boundary_of_run? (h : run? fuel p cfg files = some f) (hend : f.EndsWell) :
    (∃ s₀, prepare p cfg files = .ok s₀ ∧ f.search.run = s₀.run) ∨
      ∃ started s', Boundary p cfg files started s' ∧ f.search.run = s'.run := by
  unfold run? at h
  split at h
  · rename_i finished hprepare
    cases h
    have hbad := not_endsWell_of_prepare hprepare
    exact absurd hend hbad
  · rename_i s hprepare
    exact boundary_of_loop (.first hprepare) h hend

/-- **The counters of an exploration balance** whenever its search stands between two calls, so also
at its end, unless it was not to do any run. -/
theorem counters_balance (p : Program) (cfg : Config) (files : Files) :
    (∀ started s, Boundary p cfg files started s → s.run.scheduler.engine.Balanced started) ∧
    ∀ fuel f, run? fuel p cfg files = some f → f.EndsWell →
      (∃ s, prepare p cfg files = .ok s ∧ f.search.run = s.run) ∨
        ∃ started, f.search.run.scheduler.engine.Balanced started := by
  refine ⟨fun started s h => h.balanced, fun fuel f h hend => ?_⟩
  rcases boundary_of_run? h hend with hnone | ⟨started, s, hs, heq⟩
  · exact Or.inl hnone
  · exact Or.inr ⟨started, heq ▸ hs.balanced⟩

end Search

/-- A task reads a variable and writes to it, and the main task writes to it as well. -/
def Program.readAndWrites : Program :=
  ofInstructions "read_and_writes" ["x"]
    [("main", [.spawn "t", .write "x" one]), ("t", [.read "x" "r", .write "x" one])]

namespace Search

set_option maxRecDepth 100000 in
/-- The third run for `Interleaving.Program.readAndWrites` is the last one of two that alternatives
have started. -/
theorem balanced_readAndWrites : ∃ s, Boundary .readAndWrites (everything .fifo 0) .empty 3 s ∧
    s.run.scheduler.engine.Balanced 3 ∧ s.run.scheduler.engine.tried = 2 := by
  have hprepared : ((preparedAt? 40 .readAndWrites (everything .fifo 0) .empty 2).map fun s =>
      s.run.scheduler.engine.tried) = some 2 := by decide +kernel
  obtain ⟨s, hs, htried⟩ := Option.map_eq_some_iff.mp hprepared
  have hboundary : Boundary .readAndWrites (everything .fifo 0) .empty 3 s :=
    .prepared (prepares_of_preparedAt? hs)
  exact ⟨s, hboundary, (counters_balance _ _ _).1 3 s hboundary, htried⟩

end Search

end Interleaving
