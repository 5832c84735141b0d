import Interleaving.Proofs.Graph.Completion
import Interleaving.Proofs.Machine.Schedule
import Interleaving.Proofs.Tracking.Runs

/-!
# Free recording keeps graphs consistent

An engine that replays no schedule and whose graph records what a machine has done
(`Interleaving.Graph.Records`) goes on recording whatever the machine does next. As long as the
graph is consistent and all its pairs are complete when it starts, it is consistent after every
step, and after the last one it passes the check of completed executions
(`Interleaving.Engine.consistent_of_continuation`).
-/

namespace Interleaving

open Interleaving.Machine Interleaving.Graph

variable {a a' : Engine} {m m' : Machine} {T : LocationTable} {g : Graph} {ids : List Int}
  {os : List Observation}

namespace Graph

/-- **A graph that records what a machine has done**, be it consistent or not. Its edges, chains and
clocks are in order, its events were added in an order that keeps program order and the edges of
threads, and it shows how far the tasks have come, which locks are taken and who waits for them. -/
structure Records (g : Graph) (T : LocationTable) (m : Machine) : Prop extends g.WellFormed where
  timed : g.Timed
  forward : ∀ {r a b}, r.ordersThreads = true → b ∈ g.order → g.In r a b → Before g.order a b
  located : ∀ {k loc}, g.WritesTo k loc → loc ≠ .none
  start : ∀ {a b}, g.In .threadStart a b → g.kindOf? b = some .threadStart
  starts : ∀ {k}, k ∈ g.chain .thread → k = .init ∨ g.kindOf? k = some .threadStart
  /-- A location at which something happens has a chain. -/
  chained : g.Chained
  /-- Nothing but what comes next in its task comes right after an exclusive read. -/
  alone : ∀ {k loc r b}, g.LocksAt k loc → g.Out r k b → r = .programOrder ∧ b = k.next
  stage : ∀ t : Nat, g.Stage t m.tasks[t]?
  waits : Waits (T.siteOf? m) g m
  sites : Sites T m
  /-- Nothing is written where no place is yet. -/
  untouched : ∀ {loc}, m.lastLocation < loc → g.lastWrite loc = .init

/-- A consistent graph with complete pairs that records what a machine has done tracks the
machine. -/
theorem Records.tracks (h : g.Records T m) (hpairs : g.Completes)
    (hconsistent : ∃ ns, g.consistentOrder = .ok (some ns)) (hroom : g.order.length < 2 ^ 62) :
    g.Tracks T m := by
  have hpaired : g.Paired := ⟨hpairs, h.alone⟩
  obtain ⟨l, hl⟩ := (consistentOrder_exact h.toWellFormed hpaired).2.1.mp hconsistent
  exact ⟨⟨l, ⟨⟨h.toWired, hl, h.timed, h.forward, hroom, h.chained⟩, h.written, h.located, h.start,
    h.starts⟩⟩, hpaired, h.stage, h.waits, h.sites, h.untouched⟩

namespace Tracks

variable (h : g.Tracks T m)
include h

/-- A graph that tracks a machine records what it has done. -/
theorem records : g.Records T m := by
  obtain ⟨l, hl⟩ := h.recorded
  exact ⟨hl.wellFormed, hl.timed, hl.forward, hl.located, hl.start, hl.starts, hl.chained,
    h.paired.alone, h.stage, h.waits, h.sites, h.untouched⟩

/-- **A graph that tracks a machine is consistent.** -/
theorem consistentOrder : ∃ ns, g.consistentOrder = .ok (some ns) := by
  obtain ⟨l, hl⟩ := h.recorded
  exact (consistentOrder_exact hl.wellFormed h.paired).2.1.mpr ⟨l, hl.explained⟩

/-- **It passes the check of completed executions** when every task has come to its end. -/
theorem checkExtensive (hdone : ∀ f ∈ m.tasks, f.state = .finished ∨ f.state = .parked) :
    g.checkExtensive = .ok () := by
  obtain ⟨l, hl⟩ := h.recorded
  refine hl.wellFormed.checkExtensive h.consistentOrder fun {t n} hn hn0 => ?_
  have hstage := h.stage t
  cases hf : m.tasks[t]? with
  | none =>
    rw [hf] at hstage
    have hbegun := hstage.begun.mp ((hn 0).mpr (by omega))
    cases hbegun
  | some f =>
    rw [hf] at hstage
    rcases hdone f (List.mem_of_getElem? hf) with hs | hs
    · have hkind := (hstage.ended rfl hn).mp hs
      rw [kindOf?_eq_map, Option.map_eq_some_iff] at hkind
      obtain ⟨e, he, hkind⟩ := hkind
      exact ⟨e, he, Or.inl hkind⟩
    · obtain ⟨x, hx, hkind, hholds⟩ := hstage.parked rfl hn hs
      rw [face, Option.map_eq_some_iff] at hx
      obtain ⟨e, he, rfl⟩ := hx
      exact ⟨e, he, Or.inr ⟨hkind, hholds⟩⟩

end Tracks

end Graph

namespace Engine

/-- **Along a run** of a machine the engine tracks it. -/
theorem Tracks.follow? (h : a.Tracks m) (hrun : m.follow? ids = some (os, m'))
    (hroom : a.graph.order.length + 2 * ids.length < 2 ^ 62)
    (hfits : Word.fits (m.lastLocation + ids.length) = true) :
    ∃ a', a.learnAll os = .ok a' ∧ a'.Tracks m' ∧ a'.graph.order.length ≤
      a.graph.order.length + 2 * ids.length ∧ m'.lastLocation ≤ m.lastLocation + ids.length := by
  induction ids generalizing a m os with
  | nil =>
    cases hrun
    exact ⟨a, rfl, h, by simp, by simp⟩
  | cons id ids ih =>
    obtain ⟨seen, rest, m₁, hstep, hrest, rfl⟩ := follow?_cons_eq_some hrun
    rw [List.length_cons] at hroom hfits
    have hbase := h.tracks.sites.base
    have hfits' : ∀ {n : Int}, 0 ≤ n → n ≤ m.lastLocation + (ids.length + 1 : Nat) →
        Word.fits n = true := by
      intro n hn hle
      rw [Word.fits, Bool.and_eq_true, decide_eq_true_eq, decide_eq_true_eq, Word.least,
        Word.greatest] at hfits ⊢
      lia
    obtain ⟨l, hl⟩ := h.tracks.recorded
    obtain ⟨a₁, h₁⟩ := h.takes hl (by omega) (hfits' (by lia) (by lia)) (takes_of_step hstep)
    have hlen := h₁.length
    have hlast := h₁.last
    have hbase₁ := h₁.tracks.tracks.sites.base
    obtain ⟨a', hlearn, htracks, hlen', hlast'⟩ :=
      ih h₁.tracks hrest (by omega) (hfits' (by lia) (by push_cast; lia))
    refine ⟨a', (learnAll_append a seen rest h₁.learns).trans hlearn, htracks, ?_, ?_⟩
    · rw [List.length_cons]
      omega
    · rw [List.length_cons]
      push_cast
      lia

/-! ### The start of a run -/

/-- The locations of a run come behind the base of the run, which is a word. -/
theorem lastLocation_reset (m : Machine) {n : Int} (hn : 0 ≤ n ∧ n < 2 ^ 46) :
    (m.reset n).2.lastLocation = locationStride * (n + 1) := by
  show Word.wrap (locationStride * Word.wrap (n + 1)) = _
  have hfits : ∀ {k : Int}, 0 ≤ k → k < 2 ^ 63 → Word.fits k = true := by
    intro k h₀ hk
    rw [Word.fits, Bool.and_eq_true, decide_eq_true_eq, decide_eq_true_eq, Word.least,
      Word.greatest]
    omega
  have hnext : Word.wrap (n + 1) = n + 1 := Word.wrap_of_fits (hfits (by omega) (by omega))
  rw [hnext, locationStride, Word.wrap_of_fits (hfits (by omega) (by omega))]

/-- A new table of locations suits a machine at the start of a run. -/
theorem sites_reset (m : Machine) {n : Int} (hn : 0 ≤ n ∧ n < 2 ^ 46) (loc : Location) :
    Sites (LocationTable.initial.resolve loc).2 (m.reset n).2 where
  base := by
    have hbase := lastLocation_reset m hn
    rw [locationStride] at hbase
    rw [hbase]
    show (0 : Int) ≤ _
    omega
  numbered := by
    intro q k hk
    cases hk
  aliases := by
    intro k old hold
    rw [LocationTable.alias?_resolve] at hold
    cases hold
  range := by
    intro q loc hq
    cases hq
  injective := by
    intro q q' loc hq
    cases hq

/-- What an engine has learned at the start of a run: the start of the main task has entered the
graph. -/
structure Begins (m : Machine) (a : Engine) : Prop where
  tracks : a.Tracks m
  aliases : ∀ n, a.locations.alias? n = none
  enters : ∃ e extra, e.kind = .threadStart ∧ Entry.Enters Graph.initial a.graph [.init] e 0 0 extra

theorem Begins.order (h : Begins m a) : a.graph.order = [.init, .place 0 0] := by
  obtain ⟨e, extra, -, henters⟩ := h.enters
  exact henters.logs.order

/-- **The start of the main task** is recorded. -/
theorem begins_reset (m : Machine) {run : Int} (hrun : 0 ≤ run ∧ run < 2 ^ 46) :
    ∃ a, Engine.initial.learnAll (m.reset run).1 = .ok a ∧ Begins (m.reset run).2 a := by
  generalize he : (Event.new (0 : Nat) .threadStart .thread).set Event.startedByName
    (.task (Word.wrap (0 - 1))) = e
  have hkind : e.kind = .threadStart := by rw [← he]; rfl
  have hentry : Entry Graph.initial [.init] e 0 0 :=
    ⟨recorded_initial, by rw [← he]; rfl,
      fills_initial 0, by decide, by decide, by rw [hkind]; decide, by decide⟩
  obtain ⟨henters, hpaired, ha⟩ := hentry.first paired_initial hkind
  have hgains := henters.logs.gains
  have hlocation : e.hasLocation = true := by rw [← he]; rfl
  have hres := resolveLocation_of_hasLocation (a := .initial) hlocation
  have hsites := sites_reset m hrun e.location
  have hself : ({ e with location := ((initial.locations).resolve e.location).1 } : Event) = e := by
    rw [← he]
    rfl
  rw [hself] at hres
  obtain ⟨a, hlearn, hgraph, hfree, hlocations⟩ :=
    learn_of_brings (a := .initial) (o := .threadStart ((0 : Nat) + 1) 0) rfl
      (he ▸ Observation.events_threadStart (t := 0) 0) (by rw [hkind]; decide)
      (by rw [hkind]; decide)
      (by rw [hres]; unfold record; rw [hkind]; exact recordMarker_brings_first hentry hkind rfl)
  rw [hres] at hlocations
  replace hgraph : a.graph = (Graph.initial.noted e).trackThreadCreates (.place 0 0) := hgraph
  replace hlocations : a.locations = (LocationTable.initial.resolve e.location).2 := hlocations
  have htracks : a.graph.Tracks a.locations (m.reset run).2 := by
    rw [hgraph, hlocations]
    refine ⟨⟨_, henters.recorded⟩, hpaired, fun t => ?_, ?_, hsites, fun {loc} hloc => ?_⟩
    · by_cases ht : t = 0
      · subst ht
        exact hgains.stage (fills_initial 0) (by simp [hkind, TaskFrame.start])
          (by simp [TaskFrame.start])
      · have hnone : (m.reset run).2.tasks[t]? = none :=
          List.getElem?_eq_none (by show 1 ≤ t; omega)
        rw [hnone]
        refine ⟨iff_of_false ?_ (by simp), ?_, ?_⟩
        · rw [hgains.mem_other ht, fills_initial t]
          exact Nat.not_lt_zero 0
        · intro n f hf
          cases hf
        · intro n f hf
          cases hf
    · refine ⟨fun u hu => ?_, fun {loc task} htask => ?_, fun {u x lock} hx hs => ?_,
        fun {lock} hhas => ?_,
        fun {lock loc} hsite => ?_⟩
      · rw [ha.blocked] at hu
        cases hu
      · rw [ha.waiting] at htask
        cases htask
      · obtain rfl := List.mem_singleton.mp (List.mem_of_getElem? hx)
        cases hs
      · cases hhas
      · cases hsite
    · rw [hgains.last (ne_thread_of_lt hsites hloc),
        if_neg (by rw [hkind]; rintro ⟨hw, -⟩; cases hw)]
      rfl
  refine ⟨a, learnAll_singleton hlearn, ⟨hfree, htracks⟩, fun n => ?_, e, _, hkind,
    hgraph ▸ henters⟩
  rw [hlocations, LocationTable.alias?_resolve]
  rfl

theorem tracks_start (p : Program) :
    ∃ a, Engine.initial.learnAll ((Machine.ofProgram p).reset 0).1 = .ok a ∧ a.Tracks p.start ∧
      a.graph.order.length = 2 := by
  obtain ⟨a, hlearn, hbegins⟩ :=
    begins_reset (.ofProgram p) (show (0 : Int) ≤ 0 ∧ (0 : Int) < 2 ^ 46 by decide)
  exact ⟨a, hlearn, hbegins.tracks, by rw [hbegins.order]; rfl⟩

/-- **A run that is recorded from its start** is tracked all along. -/
theorem tracks_of_run {run : Int} (hn : 0 ≤ run ∧ run < 2 ^ 46)
    (hrun : (m.reset run).2.follow? ids = some (os, m')) (hroom : ids.length < 2 ^ 60) :
    ∃ a, Engine.initial.learnAll ((m.reset run).1 ++ os) = .ok a ∧ a.Tracks m' ∧
      a.graph.order.length ≤ 2 * ids.length + 2 ∧ m'.lastLocation ≤
        (m.reset run).2.lastLocation + ids.length := by
  obtain ⟨a, hstart, hbegins⟩ := begins_reset m hn
  have htracks := hbegins.tracks
  have hlen : a.graph.order.length = 2 := by rw [hbegins.order]; rfl
  have hfits : Word.fits ((m.reset run).2.lastLocation + ids.length) = true := by
    rw [lastLocation_reset m hn, locationStride, Word.fits, Bool.and_eq_true, decide_eq_true_eq,
      decide_eq_true_eq, Word.least, Word.greatest]
    omega
  obtain ⟨a', hlearn, htracks', hgrows⟩ := htracks.follow? hrun (by omega) hfits
  exact ⟨a', (learnAll_append .initial _ os hstart).trans hlearn, htracks', by omega, hgrows.2⟩

/-! ### Recording goes on -/

/-- **Free recording keeps a graph consistent.** Whatever the machine does after what the graph
records, its events are all recorded. The graph stays consistent, it gives a schedule, and it passes
the check of completed executions when every task has finished or is parked at an assumption that
does not hold. -/
theorem consistent_of_continuation (hfree : a.isGuiding = false)
    (hrecords : a.graph.Records a.locations m) (hpairs : a.graph.Completes)
    (hconsistent : ∃ ns, a.graph.consistentOrder = .ok (some ns))
    (hrun : m.follow? ids = some (os, m')) (hroom : a.graph.order.length + 2 * ids.length < 2 ^ 62)
    (hfits : Word.fits (m.lastLocation + ids.length) = true) :
    ∃ a', a.learnAll os = .ok a' ∧ (∃ ns, a'.graph.consistentOrder = .ok (some ns)) ∧
      (∃ ds, a'.taskSchedule = .ok ds) ∧
      ((∀ f ∈ m'.tasks, f.state = .finished ∨ f.state = .parked) →
        a'.graph.checkExtensive = .ok ()) := by
  have htracks : a.Tracks m := ⟨hfree, hrecords.tracks hpairs hconsistent (by omega)⟩
  obtain ⟨a', hlearn, h, -⟩ := htracks.follow? hrun hroom hfits
  obtain ⟨ns, hns⟩ := h.tracks.consistentOrder
  refine ⟨a', hlearn, ⟨ns, hns⟩, ?_, h.tracks.checkExtensive⟩
  unfold taskSchedule
  rw [hns]
  exact ⟨_, rfl⟩

/-- One task does an atomic update. -/
def loneUpdate : Program :=
  { name := "lone_update", globals := .ofList [("x", Value.zero)]
    threads := .ofList [(Program.mainThread,
      [{ kind := .fetchAdd, shared := "x", into := "", lock := "", thread := "",
         value := some (.literal (.number (.ofInt 1))), condition := none, message := "" }])]
    settings := none }

/-- The update is recorded, and so is the end of its task. -/
theorem consistent_loneUpdate :
    ∃ a os m' a', Engine.initial.learnAll ((Machine.ofProgram loneUpdate).reset 0).1 = .ok a ∧
    loneUpdate.start.follow? [1, 1] = some (os, m') ∧ a.learnAll os = .ok a' ∧
    (∃ ns, a'.graph.consistentOrder = .ok (some ns)) ∧ (∃ ds, a'.taskSchedule = .ok ds) ∧
    a'.graph.checkExtensive = .ok () := by
  obtain ⟨a, hstart, htracks, hlen⟩ := tracks_start loneUpdate
  have hends : (loneUpdate.start.follow? [1, 1]).any
      (fun r => r.2.tasks.all fun f => f.state = .finished) = true := by
    decide +kernel
  obtain ⟨⟨os, m'⟩, hrun, hends⟩ := (Option.any_eq_true _ _).mp hends
  obtain ⟨a', hlearn, hconsistent, hschedule, hcheck⟩ :=
    consistent_of_continuation htracks.free htracks.tracks.records htracks.tracks.paired.completed
      htracks.tracks.consistentOrder hrun (by rw [hlen]; decide) (by decide)
  refine ⟨a, os, m', a', hstart, hrun, hlearn, hconsistent, hschedule, hcheck fun f hf => Or.inl ?_⟩
  exact of_decide_eq_true (List.all_eq_true.mp hends f hf)

end Engine

end Interleaving
