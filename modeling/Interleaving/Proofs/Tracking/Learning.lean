import Interleaving.Exploration.Scheduler
import Interleaving.Proofs.Exploration.Frame
import Interleaving.Proofs.Exploration.Recording
import Interleaving.Proofs.Tracking.Sites

/-!
# What an engine learns from observations

An engine processes an observation by the events of it, one after the other
(`Interleaving.Engine.learn`). While no schedule is replayed each of them is moved to the locations
of the graph and recorded (`Interleaving.Engine.update_of_brings`).
-/

namespace Interleaving

namespace Engine

variable {a : Engine} {e e' : Event} {o : Observation} {n : Location} {g : Graph}
  {P Q : Graph → Prop}

/-- The engine after some events, unless it breaks off. What is to be done next does not matter. -/
def updateAll (a : Engine) : List Event → Except Error Engine
  | [] => .ok a
  | e :: more =>
    match a.update e with
    | (.error cause, _) => .error cause
    | (.ok _, a) => a.updateAll more

/-- The engine after an observation. -/
def learn (a : Engine) (o : Observation) : Except Scheduler.Error Engine :=
  match o.events with
  | .error cause => .error (.observation cause)
  | .ok events => (a.updateAll events).mapError .engine

/-- The engine after some observations. -/
def learnAll (a : Engine) : List Observation → Except Scheduler.Error Engine
  | [] => .ok a
  | o :: more =>
    match a.learn o with
    | .error cause => .error cause
    | .ok a => a.learnAll more

/-- Observations can be learned in two parts. -/
theorem learnAll_append (a : Engine) (os os' : List Observation) {a' : Engine}
    (h : a.learnAll os = .ok a') : a.learnAll (os ++ os') = a'.learnAll os' := by
  induction os generalizing a with
  | nil =>
    cases h
    rfl
  | cons o os ih =>
    rw [List.cons_append, learnAll]
    rw [learnAll] at h
    split at h
    · cases h
    · exact ih _ h

/-- Moving an event to the locations of the graph changes nothing but the table of locations. -/
theorem resolveLocation_engine (a : Engine) (e : Event) :
    (a.resolveLocation e).2 = { a with locations := (a.resolveLocation e).2.locations } := by
  unfold resolveLocation
  split <;> rfl

theorem alias?_resolveLocation (a : Engine) (e : Event) (n : Location) :
    (a.resolveLocation e).2.locations.alias? n = a.locations.alias? n := by
  unfold resolveLocation
  split
  · exact a.locations.alias?_resolve _ n
  · rfl

/-- A location is resolved to the one it stands for. -/
theorem resolveLocation_of_hasLocation (h : e.hasLocation = true) :
    a.resolveLocation e = ({ e with location := (a.locations.resolve e.location).1 },
      { a with locations := (a.locations.resolve e.location).2 }) := by
  rw [resolveLocation, if_pos h]

/-- **An event is recorded** while no schedule is replayed. -/
theorem update_of_brings (hfree : a.isGuiding = false) (herror : e.kind ≠ .error)
    (hfinish : e.kind ≠ .finish)
    (h : Brings (record (a.resolveLocation e).1) a.graph fun _ g => P g) :
    ∃ a', a.update e = (.ok .proceed, a') ∧ P a'.graph ∧ a'.isGuiding = false ∧
      a'.locations = (a.resolveLocation e).2.locations := by
  have hsame := resolveLocation_engine a e
  obtain ⟨_, a', hrun, hP⟩ := h (a.resolveLocation e).2 (by rw [hsame])
  have hkeeps := (record_keeps _).of_ok hrun
  refine ⟨a', ?_, hP, ?_, hkeeps.locations⟩
  · unfold update
    rw [if_neg herror, if_neg hfinish, hfree]
    dsimp only
    rw [hrun]
  · rw [isGuiding, hkeeps.guiding, hkeeps.isGuided, hsame]
    exact hfree

/-- An event that only reports an error, or the end, changes nothing. -/
theorem update_of_report (h : e.kind = .error) : a.update e = (.ok (.haltError e.message), a) := by
  rw [update, if_pos h]

/-- **An observation of one event.** -/
theorem learn_of_brings (hfree : a.isGuiding = false)
    (ho : o.events = .ok [e]) (herror : e.kind ≠ .error) (hfinish : e.kind ≠ .finish)
    (h : Brings (record (a.resolveLocation e).1) a.graph fun _ g => P g) :
    ∃ a', a.learn o = .ok a' ∧ P a'.graph ∧ a'.isGuiding = false ∧
      a'.locations = (a.resolveLocation e).2.locations := by
  obtain ⟨a', hupdate, hrest⟩ := update_of_brings hfree herror hfinish h
  refine ⟨a', ?_, hrest⟩
  rw [learn, ho]
  dsimp only
  rw [updateAll, hupdate]
  rfl

/-- **An observation of two events** at one location. -/
theorem learn_pair_of_brings (hfree : a.isGuiding = false)
    (ho : o.events = .ok [e, e']) (hloc : e.hasLocation = true) (hsame : e'.location = e.location)
    (hkinds : e.kind ≠ .error ∧ e.kind ≠ .finish ∧ e'.kind ≠ .error ∧ e'.kind ≠ .finish)
    (h : Brings (record { e with location := (a.locations.resolve e.location).1 }) a.graph
      fun _ g => P g)
    (h' : ∀ g, P g → Brings (record { e' with location := (a.locations.resolve e.location).1 }) g
      fun _ g => Q g) :
    ∃ a', a.learn o = .ok a' ∧ Q a'.graph ∧ a'.isGuiding = false ∧
      a'.locations = (a.locations.resolve e.location).2 := by
  have hloc' : e'.hasLocation = true := by
    rw [Event.hasLocation, hsame]
    exact hloc
  have hres := resolveLocation_of_hasLocation (a := a) hloc
  obtain ⟨a₁, hupdate, hP, hfree₁, hlocations⟩ :=
    update_of_brings hfree hkinds.1 hkinds.2.1 (by rw [hres]; exact h)
  rw [hres] at hlocations
  have hres' := resolveLocation_of_hasLocation (a := a₁) hloc'
  rw [hsame, hlocations, LocationTable.resolve_idem] at hres'
  obtain ⟨a₂, hupdate', hQ, hfree₂, hlocations'⟩ :=
    update_of_brings hfree₁ hkinds.2.2.1 hkinds.2.2.2 (by rw [hres']; exact h' _ hP)
  refine ⟨a₂, ?_, hQ, hfree₂, by rw [hlocations', hres']⟩
  rw [learn, ho]
  dsimp only
  rw [updateAll, hupdate]
  dsimp only
  rw [updateAll, hupdate']
  rfl

end Engine

/-! ### The events of the observations of a machine -/

namespace Observation

variable {t : Nat} {n : Location}

theorem location?_memory (id : Int) (kind : Kind) (hn : 0 < n) :
    (memory id kind n).location? = .ok n := by
  unfold location? memory Attributes.int?
  dsimp only
  rw [Dictionary.get?_set_self]
  exact if_neg (Int.not_le.mpr hn)

/-- The reports of a machine carry no values. -/
theorem withValue_memory (id : Int) (kind : Kind) (n : Location) (e : Event) :
    (memory id kind n).withValue e = e := by
  unfold withValue memory
  dsimp only
  rw [Dictionary.get?_set_of_ne _ (by decide)]
  rfl

theorem not_task_lt (t : Nat) : ¬(t : Int) + 1 < 1 := by omega

/-- The events of a step on memory. -/
def memoryEvents (t : Nat) (n : Location) : Kind → List Event
  | .read => [Event.new t .read n]
  | .write => [Event.new t .write n]
  | .readModifyWrite => [Event.new t .readExclusive n, Event.new t .writeExclusive n]
  | .lockAcquire => [Event.new t .lockAcquireRead n, Event.new t .lockAcquireWrite n]
  | .lockAcquired => [Event.new t .lockAcquired n]
  | .lockRelease => [Event.new t .lockReleaseWrite n]
  | _ => []

/-- **The events of a step on a place** of the memory. -/
theorem events_memory (hn : 0 < n) {kind : Kind} (hkind : memoryEvents t n kind ≠ []) :
    (memory (t + 1) kind n).events = .ok (memoryEvents t n kind) := by
  have hloc := location?_memory (t + 1) kind hn
  have hvalue := withValue_memory (t + 1) kind n
  have htask : (memory (t + 1) kind n).task - 1 = t := by
    show (t : Int) + 1 - 1 = t
    omega
  unfold events
  rw [if_neg (show ¬(memory (t + 1) kind n).task < 1 from not_task_lt t), htask]
  simp only [hloc, hvalue]
  cases kind <;> first
    | rfl
    | exact absurd rfl hkind

theorem events_threadFinish :
    (threadFinish (t + 1)).events = .ok [Event.new t .threadFinish .thread] := by
  unfold events threadFinish
  rw [if_neg (not_task_lt t)]
  dsimp only
  rw [show (t : Int) + 1 - 1 = t by omega]

/-- The start of a thread tells its spawner. -/
theorem events_threadStart (parent : Int) : (threadStart (t + 1) parent).events =
    .ok [(Event.new t .threadStart .thread).set Event.startedByName
      (.task (Word.wrap (parent - 1)))] := by
  unfold events threadStart Attributes.int?
  rw [if_neg (not_task_lt t)]
  dsimp only
  rw [Dictionary.get?_set_self, show (t : Int) + 1 - 1 = t by omega]

/-- A join tells the task that was waited for. -/
theorem events_threadJoin (target : Int) : (threadJoin (t + 1) target).events =
    .ok [(Event.new t .threadJoin .thread).set Event.joinedTaskName
      (.task (Word.wrap (target - 1)))] := by
  unfold events threadJoin Attributes.int?
  rw [if_neg (not_task_lt t)]
  dsimp only
  rw [Dictionary.get?_set_self, show (t : Int) + 1 - 1 = t by omega]

theorem events_assume (result : Bool) : (assume (t + 1) result).events =
    .ok [(Event.new t .assume .none).set Event.resultName (.bool result)] := by
  unfold events assume Attributes.bool?
  rw [if_neg (not_task_lt t)]
  dsimp only
  rw [Dictionary.get?_set_self, show (t : Int) + 1 - 1 = t by omega]

end Observation

end Interleaving
