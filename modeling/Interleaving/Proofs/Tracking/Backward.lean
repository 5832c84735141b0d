import Interleaving.Proofs.Program.Validity
import Interleaving.Proofs.Revisit.Maximal
import Interleaving.Proofs.Tracking.Consistent

/-!
# Backward revisits miss nothing but updates

When a write is recorded, the graph is asked which earlier reads could see it
(`Interleaving.Graph.potentialReads`), and for each of them a backward revisit is judged
(`Interleaving.BackwardRevisit.isMaximal`). What the answer leaves out is never judged. Along every
run that is recorded from its start, a read whose revisit would be accepted is among the answers
just when the write that it sees is a plain one, or one that two exclusive reads see
(`Interleaving.Program.accepted_offered`).

The reservation is needed: behind an atomic update that a read has seen, the read is not offered to
later writes although the revisit would be accepted
(`Interleaving.Program.not_offered_behind_update`).
-/

namespace Interleaving

open Interleaving.Machine Interleaving.Graph

variable {p : Program} {m m' : Machine} {a : Engine} {id : Int} {o : Observation}
  {past : List Observation} {early late es : List Event} {e : Event} {g : Graph} {w : Key}

/-! ### Moments of a run -/

/-- **In a run of a program** an event comes after some observations and after the first events of
the next one. -/
def Program.Observes (p : Program) (past : List Observation) (early : List Event)
    (e : Event) : Prop :=
  ∃ run ids os m o rest late, (0 ≤ run ∧ run < 2 ^ 46) ∧ ids.length < 2 ^ 60 ∧
    ((Machine.ofProgram p).reset run).2.follow? ids = some (os, m) ∧
    ((Machine.ofProgram p).reset run).1 ++ os = past ++ o :: rest ∧
    o.events = .ok (early ++ e :: late)

namespace Engine

/-- A new engine that has processed some observations and the first events of the next one adds an
event to its graph. -/
def Adds (past : List Observation) (early : List Event) (e : Event) (w : Key) (g : Graph) : Prop :=
  ∃ a a', Engine.initial.learnAll past = .ok a ∧ a.updateAll early = .ok a' ∧
    (Graph.addEvent (a'.resolveLocation e).1).run a'.graph = .ok w g

theorem map_eq_ok {α β ε : Type} {f : α → β} {x : Except ε α} {y : β} (h : x.map f = .ok y) :
    ∃ z, x = .ok z ∧ f z = y := by
  cases x with
  | error cause => cases h
  | ok z => exact ⟨z, rfl, Except.ok.inj h⟩

/-- Only steps that write variables have events that do. -/
theorem kind_of_writes (ho : o.events = .ok es) {x : Event} (hx : x ∈ es)
    (hkind : x.kind = .write ∨ x.kind = .writeExclusive) : o.kind = .write ∨
    o.kind = .readModifyWrite := by
  unfold Observation.events at ho
  split at ho
  · cases ho
  · dsimp only at ho
    cases hk : o.kind with
    | write => exact Or.inl rfl
    | readModifyWrite => exact Or.inr rfl
    | read | lockAcquire | lockAcquired | lockRelease =>
      rw [hk] at ho
      obtain ⟨loc, -, rfl⟩ := map_eq_ok ho
      simp only [List.mem_cons, List.not_mem_nil, or_false] at hx
      rcases hx with rfl | rfl <;> simp [Event.new] at hkind
    | _ =>
      rw [hk] at ho
      dsimp only at ho
      try split at ho
      all_goals
        cases ho
        try
          rw [List.mem_singleton.mp hx] at hkind
          simp [Event.new, Event.set] at hkind

/-- **A step that writes a variable** comes to a graph in which the write waits to take effect. -/
theorem Tracks.adds (h : a.Tracks m) (hroom : a.graph.order.length + 2 < 2 ^ 62)
    (hfits : Word.fits (m.lastLocation + 1) = true) (ht : m.Takes id [o] m')
    (ho : o.events = .ok (early ++ e :: late))
    (hkind : e.kind = .write ∨ e.kind = .writeExclusive) :
    ∃ a' w g l loc, a.updateAll early = .ok a' ∧
      (Graph.addEvent (a'.resolveLocation e).1).run a'.graph = .ok w g ∧ g.Writing l w loc := by
  have hkind' := kind_of_writes ho (by simp) hkind
  cases ht with
  | @write f position shared value v m₁ hst hv hm =>
    obtain ⟨t, rfl, hf⟩ := exists_task hst.task
    have hturn : m.Turn (m₁.touch (.shared shared)).2 t f _ [] :=
      Machine.turn hf (by rw [touch_tasks, hm])
    have hwants : ∀ lock, ¬f.Wants lock := fun lock hw => by cases eq_of_wants hst hw
    have hsame : m₁.places = m.places ∧ m₁.lastLocation = m.lastLocation := by
      rw [hm]
      exact ⟨rfl, rfl⟩
    obtain ⟨hpos, htouch⟩ := h.touched hsame.1 hsame.2 hfits (.shared shared)
    have hevents : (Observation.memory (t + 1) .write (m₁.touch (.shared shared)).1).events = _ :=
      Observation.events_memory hpos (by simp [Observation.memoryEvents])
    rw [ho, Except.ok.injEq, Observation.memoryEvents] at hevents
    -- a plain write is the only event of its step
    obtain ⟨rfl, rfl⟩ : early = [] ∧ e = .new t .write (m₁.touch (.shared shared)).1 := by
      cases early with
      | nil => exact ⟨rfl, (List.cons.inj hevents).1⟩
      | cons x early => simp at hevents
    have hlocation : (Event.new t .write (m₁.touch (.shared shared)).1).hasLocation = true :=
      bne_iff_ne.mpr hpos.ne'
    obtain ⟨l, hl⟩ := h.tracks.recorded
    obtain ⟨n, he, hw, -⟩ := h.tracks.write_enters hl hroom hturn hst.ready hwants htouch
    exact ⟨a, _, _, _, _, rfl, by rw [resolveLocation_of_hasLocation hlocation]; exact he.addEvent,
      hw⟩
  | @fetchAdd f position shared into value delta n sum m₁ hst hv hold hsum hm =>
    obtain ⟨t, rfl, hf⟩ := exists_task hst.task
    have hturn : m.Turn (m₁.touch (.shared shared)).2 t f _ [] :=
      Machine.turn hf (by rw [touch_tasks, hm])
    have hwants : ∀ lock, ¬f.Wants lock := fun lock hw => by cases eq_of_wants hst hw
    have hsame : m₁.places = m.places ∧ m₁.lastLocation = m.lastLocation := by
      rw [hm]
      exact ⟨rfl, rfl⟩
    obtain ⟨hpos, htouch⟩ := h.touched hsame.1 hsame.2 hfits (.shared shared)
    have hevents :
        (Observation.memory (t + 1) .readModifyWrite (m₁.touch (.shared shared)).1).events = _ :=
      Observation.events_memory hpos (by simp [Observation.memoryEvents])
    rw [ho, Except.ok.injEq, Observation.memoryEvents] at hevents
    -- the write of an update comes behind its read
    obtain ⟨rfl, rfl⟩ : early = [.new t .readExclusive (m₁.touch (.shared shared)).1] ∧
        e = .new t .writeExclusive (m₁.touch (.shared shared)).1 := by
      cases early with
      | nil =>
        rw [(List.cons.inj hevents).1] at hkind
        simp [Event.new] at hkind
      | cons x early =>
        cases early with
        | nil =>
          simp only [List.singleton_append, List.cons.injEq] at hevents
          exact ⟨by rw [hevents.1], hevents.2.1⟩
        | cons y early => simp at hevents
    have hlocation : ∀ kind, (Event.new t kind (m₁.touch (.shared shared)).1).hasLocation = true :=
      fun _ =>
      bne_iff_ne.mpr hpos.ne'
    have hres := resolveLocation_of_hasLocation (a := a) (hlocation .readExclusive)
    obtain ⟨l, hl⟩ := h.tracks.recorded
    obtain ⟨n, g₁, -, hbrings, hhalf⟩ :=
      h.tracks.update_enters hl hroom hturn hst.ready hwants htouch
    obtain ⟨a', hupdate, hgraph, -, hlocations⟩ :=
      update_of_brings (e := .new t .readExclusive (m₁.touch (.shared shared)).1) h.free
        (by simp [Event.new]) (by simp [Event.new]) (by rw [hres]; exact hbrings)
    have hres' := resolveLocation_of_hasLocation (a := a') (hlocation .writeExclusive)
    rw [hres] at hlocations
    refine ⟨a', _, _, _, _, ?_, ?_, hhalf.writing⟩
    · rw [updateAll, hupdate]
      rfl
    · rw [hres', hgraph, hlocations]
      -- its location is known from the read, so resolving it again changes nothing
      have hidem := LocationTable.resolve_idem a.locations (m₁.touch (.shared shared)).1
      dsimp only [Event.new] at hidem ⊢
      rw [hidem]
      exact hhalf.entry.addEvent
  | _ => rcases hkind' with heq | heq <;> cases heq

end Engine

/-! ### Runs -/

namespace Machine

/-- A step is seen by one observation at most. -/
theorem Takes.seen {seen : List Observation} (h : m.Takes id seen m') :
    seen = [] ∨ ∃ o, seen = [o] := by
  cases h with
  | joins => exact Or.inl rfl
  | _ => exact Or.inr ⟨_, rfl⟩

/-- **The step of an observation** in a run, and the run before it. -/
theorem exists_takes_of_follow? {ids : List Int} {rest : List Observation}
    (h : m.follow? ids = some (past ++ o :: rest, m')) :
    ∃ ids₁ id m₁ m₂, ids₁.length < ids.length ∧ m.follow? ids₁ = some (past, m₁) ∧
      m₁.Takes id [o] m₂ := by
  induction ids generalizing m past with
  | nil => simp [follow?] at h
  | cons id ids ih =>
    obtain ⟨seen, more, m₁, hstep, hmore, heq⟩ := follow?_cons_eq_some h
    have htakes := takes_of_step hstep
    rcases htakes.seen with rfl | ⟨x, rfl⟩
    · rw [List.nil_append] at heq
      subst heq
      obtain ⟨ids₁, id', m₂, m₃, hlen, hf, ht⟩ := ih hmore
      refine ⟨id :: ids₁, id', m₂, m₃, by simpa using hlen, ?_, ht⟩
      rw [follow?_cons_of_step hstep, hf]
      rfl
    · cases past with
      | nil =>
        obtain ⟨rfl, -⟩ := List.cons.inj heq
        exact ⟨[], id, m, m₁, by simp, rfl, htakes⟩
      | cons y past =>
        obtain ⟨rfl, rfl⟩ := List.cons.inj heq
        obtain ⟨ids₁, id', m₂, m₃, hlen, hf, ht⟩ := ih hmore
        refine ⟨id :: ids₁, id', m₂, m₃, by simpa using hlen, ?_, ht⟩
        rw [follow?_cons_of_step hstep, hf]
        rfl

end Machine

namespace Program

/-- **An accepted read is offered to a new write**, in every run that is recorded from its start:
the write is added, the reads that could see it are known, and every read of its location that does
not happen before it has a source and a backward revisit that can be judged. A read whose revisit is
accepted is among the reads that could see the write, just when its source is no exclusive write, or
one that two exclusive reads of the location see. -/
theorem accepted_offered (h : p.Observes past early e)
    (hkind : e.kind = .write ∨ e.kind = .writeExclusive) :
    ∃ w g rs, Engine.Adds past early e w g ∧ g.potentialReads w = .ok rs ∧
      ∀ r, g.ReadsAt r (g.locationOf w) → g.happensBefore r w = false →
        ∃ s v b, g.In .readsFrom s r ∧ BackwardRevisit.new g w r = .ok v ∧ v.isMaximal = .ok b ∧
          (b = true → (r ∈ rs ↔ g.Shared s (g.locationOf w))) := by
  obtain ⟨run, ids, os, m', o, rest, late, hn, hlen, hrun, hos, ho⟩ := h
  obtain ⟨past, rfl⟩ : ∃ past', past = .threadStart 1 0 :: past' := by
    cases past with
    | nil =>
      obtain ⟨rfl, -⟩ := List.cons.inj hos
      rcases Engine.kind_of_writes ho (by simp) hkind with heq | heq <;> cases heq
    | cons y past =>
      obtain ⟨rfl, -⟩ := List.cons.inj hos
      exact ⟨past, rfl⟩
  obtain ⟨-, rfl⟩ := List.cons.inj hos
  obtain ⟨ids₁, id, m₁, m₂, hshort, hbefore, htakes⟩ := exists_takes_of_follow? hrun
  obtain ⟨a, hlearn, htracks, hsize, hlast⟩ := Engine.tracks_of_run hn hbefore (by omega)
  have hfits : Word.fits (m₁.lastLocation + 1) = true := by
    have hbase := htracks.tracks.sites.base
    rw [Engine.lastLocation_reset _ hn, locationStride] at hlast
    rw [Word.fits, Bool.and_eq_true, decide_eq_true_eq, decide_eq_true_eq, Word.least,
      Word.greatest]
    lia
  obtain ⟨a', w, g, l, loc, hearly, hadd, hw⟩ := htracks.adds (by omega) hfits htakes ho hkind
  obtain ⟨rs, hrs, -⟩ := hw.potentialReads
  refine ⟨w, g, rs, ⟨a, a', hlearn, hearly, hadd⟩, hrs, fun r hread hnot => ?_⟩
  rw [locationOf_eq hw.write] at hread ⊢
  obtain ⟨-, s, -, hs⟩ := hw.source hread
  have hin := (hs s).mpr rfl
  obtain ⟨v, hv, hp, -⟩ := hw.new hread hnot
  obtain ⟨b, hb⟩ := hp.isMaximal
  exact ⟨s, v, b, hin, hv, hb, fun htrue =>
    hw.mem_potentialReads_iff_of_isMaximal hread hnot hin hv (htrue ▸ hb) hrs⟩

/-- Observations of a schedule that can be followed come up in a run. -/
theorem observes_of_follow? {ids : List Int} {rest : List Observation} (hlen : ids.length < 2 ^ 60)
    (hrun : (p.start.follow? ids).map (·.1) = some (past ++ o :: rest))
    (ho : o.events = .ok (early ++ e :: late)) : p.Observes (.threadStart 1 0 :: past) early e := by
  obtain ⟨⟨os, m⟩, hf, rfl⟩ := Option.map_eq_some_iff.mp hrun
  exact ⟨0, ids, _, m, o, rest, late, by decide, hlen, hf, rfl, ho⟩

/-- A task spawns a reader of a variable, updates the variable and writes it. -/
def updateBeforeWrite : Program :=
  ofInstructions "update_before_write" ["x"]
    [("main", [.spawn "reader", .fetchAdd "x" "" (.literal (.number (.ofInt 1))),
        .write "x" (.literal (.number (.ofInt 2)))]),
      ("reader", [.read "x" "r"])]

/-- What is observed of `Interleaving.Program.updateBeforeWrite` when the reader comes first. -/
def readBeforeUpdate : List Observation :=
  [.threadStart 1 0, .threadStart 2 1, .memory 2 .read 65537]

/-- What is observed when the reader comes between the update and the write. -/
def readBehindUpdate : List Observation :=
  [.threadStart 1 0, .threadStart 2 1, .memory 1 .readModifyWrite 65537, .memory 2 .read 65537]

/-- The read that comes first is offered to the update. -/
theorem accepted_offered_to_update :
    updateBeforeWrite.Observes readBeforeUpdate [.new 0 .readExclusive 65537]
      (.new 0 .writeExclusive 65537) ∧
    ∃ w g rs, Engine.Adds readBeforeUpdate [.new 0 .readExclusive 65537]
      (.new 0 .writeExclusive 65537) w g ∧ g.potentialReads w = .ok rs ∧
      ∀ r, g.ReadsAt r (g.locationOf w) → g.happensBefore r w = false →
        ∃ s v b, g.In .readsFrom s r ∧ BackwardRevisit.new g w r = .ok v ∧ v.isMaximal = .ok b ∧
          (b = true → (r ∈ rs ↔ g.Shared s (g.locationOf w))) := by
  have hrun : (updateBeforeWrite.start.follow? [1, 2, 1]).map (·.1) =
      some ([.threadStart 2 1, .memory 2 .read 65537] ++ [.memory 1 .readModifyWrite 65537]) := by
        decide +kernel
  have hevents : (Observation.memory 1 .readModifyWrite 65537).events =
      .ok ([.new 0 .readExclusive 65537] ++ [.new 0 .writeExclusive 65537]) := by decide +kernel
  have h := observes_of_follow? (by decide) hrun hevents
  exact ⟨h, accepted_offered h (Or.inr rfl)⟩

/-- A plain read of the location of a write is not offered to it, although the revisit would be
accepted. -/
def misses (g : Graph) (w r : Key) : Bool :=
  g.kindOf? r = some .read && (g.find? r).map (·.location) = some (g.locationOf w) &&
    !g.happensBefore r w &&
    (BackwardRevisit.new g w r).toOption.any (fun v => v.isMaximal.toOption = some true) &&
    (g.potentialReads w).toOption = some []

/-- Whether a new engine, after some observations, adds a write that misses a read. -/
def missesAfter (past : List Observation) (e : Event) (r : Key) : Bool :=
  (Engine.initial.learnAll past).toOption.any fun a =>
    match (Graph.addEvent (a.resolveLocation e).1).run a.graph with
    | .ok w g => misses g w r
    | .error _ _ => false

theorem eq_ok_of_toOption {α ε : Type} {x : Except ε α} {y : α} (h : x.toOption = some y) :
    x = .ok y := by
  cases x with
  | error cause => cases h
  | ok z => exact congrArg Except.ok (Option.some.inj h)

/-- **Not every accepted read is offered.** In a run of `Interleaving.Program.updateBeforeWrite` the
reader sees the update, and it is not offered to the write behind it although the revisit would be
accepted. -/
theorem not_offered_behind_update :
    ¬ ∀ (p : Program) (past : List Observation) (early : List Event) (e : Event) (w r : Key)
      (g : Graph) (rs : List Key)
        (v : BackwardRevisit), p.isValid = true → p.Observes past early e →
      (e.kind = .write ∨ e.kind = .writeExclusive) → Engine.Adds past early e w g →
      g.ReadsAt r (g.locationOf w) →
      (g.kindOf? r = some .read ∨ g.kindOf? r = some .readExclusive) →
      g.happensBefore r w = false → BackwardRevisit.new g w r = .ok v → v.isMaximal = .ok true →
      g.potentialReads w = .ok rs → r ∈ rs := by
  intro h
  have hrun : (updateBeforeWrite.start.follow? [1, 1, 2, 1]).map (·.1) =
      some ([.threadStart 2 1, .memory 1 .readModifyWrite 65537, .memory 2 .read 65537] ++
        [.memory 1 .write 65537]) := by
    decide +kernel
  have hevents : (Observation.memory 1 .write 65537).events =
    .ok ([] ++ [.new 0 .write 65537]) := by decide +kernel
  have hmisses : missesAfter readBehindUpdate (.new 0 .write 65537) ⟨1, 1⟩ = true := by
    decide +kernel
  obtain ⟨a, ha, hmisses⟩ := (Option.any_eq_true _ _).mp hmisses
  split at hmisses
  · rename_i w g hadd
    simp only [misses, Bool.and_eq_true, decide_eq_true_eq, Bool.not_eq_true'] at hmisses
    obtain ⟨⟨⟨⟨hkind, hloc⟩, hnot⟩, hview⟩, hreads⟩ := hmisses
    obtain ⟨v, hv, hmax⟩ := (Option.any_eq_true _ _).mp hview
    have hread : g.ReadsAt ⟨1, 1⟩ (g.locationOf w) := by
      obtain ⟨n, hn, hsite⟩ := Option.map_eq_some_iff.mp hloc
      rw [kindOf?, hn, Option.map_some, Option.some_inj] at hkind
      refine ⟨n.event, by rw [event?, hn]; rfl, ?_, hsite⟩
      rw [show n.event.kind = .read from hkind]
      rfl
    have hmem := h updateBeforeWrite readBehindUpdate [] (.new 0 .write 65537) w ⟨1, 1⟩ g [] v
      (by decide +kernel) (observes_of_follow? (by decide) hrun hevents) (Or.inl rfl)
      ⟨a, a, eq_ok_of_toOption ha, rfl, hadd⟩ hread (Or.inl hkind) hnot
      (eq_ok_of_toOption hv) (eq_ok_of_toOption (of_decide_eq_true hmax))
      (eq_ok_of_toOption hreads)
    cases hmem
  · cases hmisses

end Program

end Interleaving
