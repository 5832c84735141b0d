import Interleaving.Proofs.Graph.Initial
import Interleaving.Proofs.Machine.History
import Interleaving.Proofs.Tracking.Learning
import Interleaving.Proofs.Tracking.Steps

/-!
# Recording the runs of a machine

An engine that replays no schedule records what a machine does. Each step of the machine leads to an
engine that tracks the machine after it (`Interleaving.Engine.Tracks.takes`), so along every run the
graph stays consistent (`Interleaving.Engine.Tracks.follow?`).
-/

namespace Interleaving

open Interleaving.Machine Interleaving.Graph

/-- **An engine that tracks a machine**: it replays no schedule, and its graph shows what the
machine has done. -/
structure Engine.Tracks (a : Engine) (m : Machine) : Prop where
  free : a.isGuiding = false
  tracks : a.graph.Tracks a.locations m

/-- What an engine comes to by a step of a machine. Unless the step shows an error of the program,
its events have entered the graph. -/
structure Engine.Advances (a : Engine) (l : List Key) (id : Int) (os : List Observation)
    (m m' : Machine) (a' : Engine) : Prop where
  learns : a.learnAll os = .ok a'
  tracks : a'.Tracks m'
  length : a'.graph.order.length ≤ a.graph.order.length + 2
  last : m'.lastLocation ≤ m.lastLocation + 1
  /-- Numbers keep their meaning. -/
  aliases : ∀ n, a'.locations.alias? n = a.locations.alias? n
  enlists : (∀ o ∈ os, o.kind ≠ .assertFailure) →
    Enlists a.graph l ((m'.stepEvents id os).map fun e => (a'.resolveLocation e).1) a'.graph

variable {a a' : Engine} {m m' m₁ : Machine} {T T' : LocationTable} {t : Nat} {f f' : TaskFrame}
  {e e' : Event} {o : Observation} {os : List Observation} {id : Int} {p : Place} {P : Graph → Prop}
  {l : List Key} {es : List Event}

/-! ### Machines -/

namespace Machine

theorem exists_task (h : m.task? id = some f) : ∃ t : Nat, id = t + 1 ∧ m.tasks[t]? = some f := by
  obtain ⟨hid, ht⟩ := task?_eq_some.mp h
  exact ⟨(id - 1).toNat, by omega, ht⟩

theorem tasks_setTask (m : Machine) (t : Nat) (f : TaskFrame) :
    (m.setTask (t + 1) f).tasks = m.tasks.set t f := by
  show m.tasks.set ((t : Int) + 1 - 1).toNat f = _
  rw [show ((t : Int) + 1 - 1).toNat = t by omega]

/-- Only the task that steps has changed. -/
theorem turn (hf : m.tasks[t]? = some f) (htasks : m'.tasks = (m.setTask (t + 1) f').tasks) :
    m.Turn m' t f f' [] where
  self := hf
  tasks := by rw [htasks, tasks_setTask, List.append_nil]

theorem task?_of_tasks (hf : m.tasks[t]? = some f) : m.task? (t + 1) = some f :=
  task?_eq_some.mpr ⟨by omega, by rw [show ((t : Int) + 1 - 1).toNat = t by omega]; exact hf⟩

/-- A step that leaves a task waiting shows no events. -/
theorem stepEvents_of_waiting {lock : String}
    (hf : m.tasks[t]? = some f) (hs : f.state = .waiting lock) (os : List Observation) :
    m.stepEvents (t + 1) os = [] := by
  obtain ⟨thread, code, position, state, registers, children⟩ := f
  obtain rfl : state = .waiting lock := hs
  rw [stepEvents, isWaiting, task?_of_tasks hf]
  rfl

/-- Any other step shows what is observed. -/
theorem stepEvents_of_tasks (hf : m.tasks[t]? = some f) (hs : ∀ lock, f.state ≠ .waiting lock)
    (os : List Observation) : m.stepEvents (t + 1) os = os.flatMap Observation.recorded := by
  have hwaiting : m.isWaiting (t + 1) = false := by
    rw [isWaiting, task?_of_tasks hf]
    split
    · rename_i lock _ _ heq
      exact absurd (congrArg TaskFrame.state (Option.some.inj heq)) (hs lock)
    · rfl
  rw [stepEvents, hwaiting]
  rfl

end Machine

namespace Observation

theorem recorded_of_events (hkind : o.kind ≠ .lockAcquired) (h : o.events = .ok es) :
    o.recorded = es := by
  rw [recorded, if_neg hkind, h]
  rfl

/-- The events of a step on memory. The end of a wait for a lock stands for the acquisition. -/
theorem recorded_memory {n : Location} (hn : 0 < n) {kind kind' : Kind}
    (hkind : kind' = if kind = .lockAcquired then .lockAcquire else kind)
    (hevents : memoryEvents t n kind' ≠ []) :
    (memory (t + 1) kind n).recorded = memoryEvents t n kind' := by
  by_cases hlock : kind = .lockAcquired
  · subst hlock
    obtain rfl : kind' = .lockAcquire := hkind
    show ((memory (t + 1) .lockAcquire n).events.toOption.getD []) = _
    rw [events_memory hn hevents]
    rfl
  · rw [if_neg hlock] at hkind
    subst hkind
    exact recorded_of_events hlock (events_memory hn hevents)

end Observation

namespace Engine

theorem learnAll_singleton (h : a.learn o = .ok a') : a.learnAll [o] = .ok a' := by
  rw [learnAll, h]
  rfl

/-- A task that has waited for a lock takes it, in two halves. -/
theorem recordLockAcquired_brings {g : Graph} {Q : Unit → Graph → Prop}
    (hwait : g.isWaiting e.location e.task = true)
    (h : Brings (recordLockRead (.new e.task .lockAcquireRead e.location)) g fun _ g' => P g')
    (h' : ∀ g', P g' → Brings (recordLockWrite (.new e.task .lockAcquireWrite e.location)) g' Q) :
    Brings (recordLockAcquired e) g Q := by
  refine .get fun a ha => ?_
  rw [ha, if_pos hwait]
  exact h.bind fun _ g' hg' => h' g' hg'

namespace Tracks

/-- A step that is observed by one event. -/
theorem one (h : a.Tracks m)
    (ho : o.events = .ok [e]) (herror : e.kind ≠ .error) (hfinish : e.kind ≠ .finish)
    (hres : a.resolveLocation e = (e', { a with locations := T' }))
    (hb : Brings (record e') a.graph fun _ g' => Reaches a.graph T' m' g' ∧ Enlists a.graph l es g')
    (hlast : m'.lastLocation ≤ m.lastLocation + 1)
    (hes : ∀ a' : Engine, a'.locations = T' →
      (m'.stepEvents id [o]).map (fun e => (a'.resolveLocation e).1) = es) :
    ∃ a', a.Advances l id [o] m m' a' := by
  obtain ⟨a', hlearn, ⟨⟨htracks, hlen⟩, henlists⟩, hfree, hlocations⟩ :=
    learn_of_brings h.free ho herror hfinish (by rw [hres]; exact hb)
  have haliases := alias?_resolveLocation a e
  rw [← hlocations] at haliases
  rw [hres] at hlocations
  exact ⟨a', learnAll_singleton hlearn, ⟨hfree, hlocations ▸ htracks⟩, hlen, hlast, haliases,
    fun _ => (hes a' hlocations).symm ▸ henlists⟩

/-- A step of which nothing is learned. -/
theorem quiet (h : a.Tracks m) (hl : a.graph.Recorded l)
    (hf : m.tasks[t]? = some f) (hlearn : a.learnAll os = .ok a)
    (hseen : (∃ o ∈ os, o.kind = .assertFailure) ∨ os = [])
    (hgoing : f.state ≠ .finished) (hgoing' : f'.state ≠ .finished) (hparked : f'.state ≠ .parked)
    (hstate : ∀ lock, f'.state ≠ .waiting lock) (hwants : ∀ lock, f.Wants lock → f'.Wants lock) :
    ∃ a', a.Advances l id os m (m.setTask (t + 1) f') a' := by
  have hturn : m.Turn (m.setTask (t + 1) f') t f f' [] := Machine.turn hf rfl
  have hsites : Sites a.locations (m.setTask (t + 1) f') := h.tracks.sites.congr rfl rfl
  refine ⟨a, hlearn, ⟨h.free, ?_⟩, by omega, ?_, fun _ => rfl, fun hok => ?_⟩
  · refine h.tracks.relabel hl hturn (.refl _) hl.toWired (by simp [hgoing, hgoing'])
      (fun hs => absurd hs hparked) ?_ hsites (Int.le_refl _)
    exact h.tracks.waits.plain hturn ⟨fun _ => rfl,
      fun _ => rfl⟩ (fun lock => LocationTable.siteOf?_congr _ rfl _)
      (fun _ => Iff.rfl) rfl hwants hstate (by simp)
  · show m.lastLocation ≤ m.lastLocation + 1
    lia
  · obtain rfl : os = [] := hseen.resolve_left fun ⟨o, ho, hkind⟩ => hok o ho hkind
    have hnone : (m.setTask (t + 1) f').stepEvents id [] = [] := by
      unfold stepEvents
      split <;> rfl
    rw [hnone]
    exact .labels (.refl _) hl.toWired

/-- A step that shows an error of the program. -/
theorem report (h : a.Tracks m) (hl : a.graph.Recorded l)
    (hf : m.tasks[t]? = some f) (hgoing : f.state ≠ .finished) (hf' : f'.state = .failed)
    (message : String) :
    ∃ a', a.Advances l id [.assertFailure (t + 1) message] m (m.setTask (t + 1) f') a' := by
  have hlearn : a.learn (.assertFailure (t + 1) message) = .ok a := by
    unfold learn Observation.events Observation.assertFailure
    rw [if_neg (Observation.not_task_lt t)]
    dsimp only
    rw [updateAll, update_of_report rfl]
    rfl
  exact h.quiet hl hf (learnAll_singleton hlearn) (Or.inl ⟨_, List.mem_singleton_self _, rfl⟩)
    hgoing (by simp [hf']) (by simp [hf']) (by simp [hf'])
    fun lock _ => Or.inr (Or.inl hf')

/-! ### The steps of a machine -/

/-- What a step on a place has to do with locations. -/
theorem touched (h : a.Tracks m) (hplaces : m₁.places = m.places)
    (hlast : m₁.lastLocation = m.lastLocation) (hroom : Word.fits (m.lastLocation + 1) = true)
    (p : Place) :
    0 < (m₁.touch p).1 ∧
      Touched a.locations (a.locations.resolve (m₁.touch p).1).2 m (m₁.touch p).2 p
        (a.locations.resolve (m₁.touch p).1).1 :=
  ⟨(h.tracks.sites.congr hplaces hlast).touch_pos (hlast ▸ hroom) p,
    h.tracks.sites.touch_congr hplaces hlast hroom p⟩

/-- The events of a step on memory, moved to the location of the place. -/
theorem map_resolveLocation {n : Location} {kind : Observation.Kind} (hn : 0 < n)
    (ha : a'.locations = (T.resolve n).2) :
    (Observation.memoryEvents t n kind).map (fun e => (a'.resolveLocation e).1) =
      Observation.memoryEvents t (T.resolve n).1 kind := by
  have hres : ∀ k : Kind, (a'.resolveLocation (.new t k n)).1 = .new t k (T.resolve n).1 := by
    intro k
    have hhas : (Event.new t k n).hasLocation = true := bne_iff_ne.mpr hn.ne'
    rw [resolveLocation_of_hasLocation hhas, ha]
    show ({ Event.new t k n with location := ((T.resolve n).2.resolve n).1 } : Event) = _
    rw [T.resolve_resolve]
    rfl
  cases kind <;> simp [Observation.memoryEvents, hres]

/-- A step on memory that is one event. -/
theorem memory (h : a.Tracks m)
    (hf' : (m₁.touch p).2.tasks[t]? = some f') (hstate : f'.state = .ready)
    (hplaces : m₁.places = m.places) (hlast : m₁.lastLocation = m.lastLocation)
    (hroom : Word.fits (m.lastLocation + 1) = true) {okind : Observation.Kind} {kind : Kind}
    (hevents : ∀ n, Observation.memoryEvents t n okind = [.new t kind n])
    (hkind : kind ≠ .error ∧ kind ≠ .finish) {okind' : Observation.Kind}
    (hokind : okind' = if okind = .lockAcquired then .lockAcquire else okind)
    (hevents' : ∀ n, Observation.memoryEvents t n okind' ≠ [])
    (hb : ∀ {loc T'}, Touched a.locations T' m (m₁.touch p).2 p loc →
      Brings (record (.new t kind loc)) a.graph fun _ g' =>
        Reaches a.graph T' (m₁.touch p).2 g' ∧
          Enlists a.graph l (Observation.memoryEvents t loc okind') g') :
    ∃ a', a.Advances l (t + 1) [.memory (t + 1) okind (m₁.touch p).1] m (m₁.touch p).2 a' := by
  obtain ⟨hpos, htouch⟩ := h.touched hplaces hlast hroom p
  have ho : (Observation.memory (t + 1) okind (m₁.touch p).1).events =
      .ok (Observation.memoryEvents t _ okind) :=
    Observation.events_memory hpos (by rw [hevents]; simp)
  rw [hevents] at ho
  have hlocation : (Event.new t kind (m₁.touch p).1).hasLocation = true := bne_iff_ne.mpr hpos.ne'
  refine h.one ho hkind.1 hkind.2 (resolveLocation_of_hasLocation hlocation)
    (hb htouch) htouch.grows.2 fun a' ha' => ?_
  rw [stepEvents_of_tasks hf' (by simp [hstate]), List.flatMap_singleton,
    Observation.recorded_memory hpos hokind (hevents' _)]
  exact map_resolveLocation hpos ha'

/-- A step on memory that is two events. -/
theorem memory_pair (h : a.Tracks m)
    (hf' : (m₁.touch p).2.tasks[t]? = some f') (hplaces : m₁.places = m.places)
    (hlast : m₁.lastLocation = m.lastLocation) (hroom : Word.fits (m.lastLocation + 1) = true)
    {okind : Observation.Kind} {kind kind' : Kind}
    (hevents : ∀ n, Observation.memoryEvents t n okind = [.new t kind n, .new t kind' n])
    (hkinds : kind ≠ .error ∧ kind ≠ .finish ∧ kind' ≠ .error ∧ kind' ≠ .finish)
    (hokind : okind ≠ .lockAcquired) {es : Location → List Event}
    (hes : ∀ n, es n = [] ∧ (∃ lock, f'.state = .waiting lock) ∨
      es n = [.new t kind n, .new t kind' n] ∧ f'.state = .ready)
    (hb : ∀ {loc T'}, Touched a.locations T' m (m₁.touch p).2 p loc →
      ∃ P : Graph → Prop, Brings (record (.new t kind loc)) a.graph (fun _ g₁ => P g₁) ∧
        ∀ g₁, P g₁ → Brings (record (.new t kind' loc)) g₁ fun _ g' =>
          Reaches a.graph T' (m₁.touch p).2 g' ∧ Enlists a.graph l (es loc) g') :
    ∃ a', a.Advances l (t + 1) [.memory (t + 1) okind (m₁.touch p).1] m (m₁.touch p).2 a' := by
  obtain ⟨hpos, htouch⟩ := h.touched hplaces hlast hroom p
  have ho : (Observation.memory (t + 1) okind (m₁.touch p).1).events =
      .ok (Observation.memoryEvents t _ okind) :=
    Observation.events_memory hpos (by rw [hevents]; simp)
  rw [hevents] at ho
  have hlocation : (Event.new t kind (m₁.touch p).1).hasLocation = true := bne_iff_ne.mpr hpos.ne'
  obtain ⟨P, hfirst, hsecond⟩ := hb htouch
  obtain ⟨a', hlearn, ⟨⟨htracks, hlen⟩, henlists⟩, hfree, hlocations⟩ :=
    learn_pair_of_brings h.free ho hlocation rfl hkinds hfirst hsecond
  refine ⟨a', learnAll_singleton hlearn, ⟨hfree, hlocations ▸ htracks⟩, hlen, htouch.grows.2,
    fun n => hlocations ▸ a.locations.alias?_resolve _ n, fun _ => ?_⟩
  rcases hes (a.locations.resolve (m₁.touch p).1).1 with ⟨heq, lock, hstate⟩ | ⟨heq, hstate⟩
  · rw [stepEvents_of_waiting hf' hstate, List.map_nil, ← heq]
    exact henlists
  · rw [stepEvents_of_tasks hf' (by simp [hstate]), List.flatMap_singleton,
      Observation.recorded_memory hpos (if_neg hokind).symm (by rw [hevents]; simp),
      map_resolveLocation hpos hlocations, hevents, ← heq]
    exact henlists

/-- A step that has nothing to do with memory. -/
theorem still (h : a.Tracks m)
    (hf' : m'.tasks[t]? = some f') (hstate : ∀ lock, f'.state ≠ .waiting lock)
    (hplaces : m'.places = m.places) (hlast : m'.lastLocation = m.lastLocation)
    (ho : o.events = .ok [e]) (hokind : o.kind ≠ .lockAcquired)
    (hkind : e.kind ≠ .error ∧ e.kind ≠ .finish)
    (hlocation : e.location = .thread ∨ e.location = .none)
    (hb : ∀ {T'}, Sites T' m' → (∀ p, T'.siteOf? m' p = a.locations.siteOf? m p) →
      Brings (record e) a.graph fun _ g' => Reaches a.graph T' m' g' ∧ Enlists a.graph l [e] g') :
    ∃ a', a.Advances l (t + 1) [o] m m' a' := by
  have hsites := h.tracks.sites.congr hplaces hlast
  have hstep : m'.stepEvents (t + 1) [o] = [e] := by
    rw [stepEvents_of_tasks hf' hstate, List.flatMap_singleton,
      Observation.recorded_of_events hokind ho]
  have hgrows : m'.lastLocation ≤ m.lastLocation + 1 := by lia
  rcases hlocation with hloc | hloc
  · have hhas : e.hasLocation = true := by
      rw [Event.hasLocation, hloc]
      rfl
    have hres := resolveLocation_of_hasLocation (a := a) hhas
    have hself : ({ e with location := (a.locations.resolve e.location).1 } : Event) = e := by
      rw [hsites.resolve_of_nonpos (by rw [hloc]; decide)]
    rw [hself] at hres
    refine h.one ho hkind.1 hkind.2 hres (hb (hsites.resolve _) fun p => ?_) hgrows fun a' ha' => ?_
    · rw [LocationTable.siteOf?_resolve, LocationTable.siteOf?_congr _ hplaces]
    · rw [hstep, List.map_singleton, resolveLocation_of_hasLocation hhas, ha',
        LocationTable.resolve_idem]
      exact congrArg (fun e => [e]) hself
  · have hres : a.resolveLocation e = (e, { a with locations := a.locations }) := by
      rw [resolveLocation, if_neg (by rw [Event.hasLocation, hloc]; decide)]
    refine h.one ho hkind.1 hkind.2 hres
      (hb hsites fun p => LocationTable.siteOf?_congr _ hplaces p) hgrows
      fun a' _ => ?_
    rw [hstep, List.map_singleton, resolveLocation,
      if_neg (by rw [Event.hasLocation, hloc]; decide)]

/-- **A step of a machine** is recorded, and the engine tracks the machine after it. -/
theorem takes (h : a.Tracks m) (hl : a.graph.Recorded l) (hroom : a.graph.order.length + 2 < 2 ^ 62)
    (hfits : Word.fits (m.lastLocation + 1) = true) (ht : m.Takes id os m') :
    ∃ a', a.Advances l id os m m' a' := by
  have hg := h.tracks
  cases ht with
  | @acquired f lock m₁ hid hs hfree hm =>
    obtain ⟨t, rfl, hf⟩ := exists_task hid
    have hturn : m.Turn (m₁.touch (.lock lock)).2 t f _ [] :=
      Machine.turn hf (by rw [touch_tasks, hm])
    have hwants : ∀ lock', f.Wants lock' → lock' = lock := by
      rintro lock' (hw | hw | ⟨hw, -⟩) <;> rw [hs] at hw <;> cases hw
      rfl
    refine h.memory hturn.after rfl (by rw [hm]; rfl) (by rw [hm]; rfl) hfits (fun n => rfl)
      (by decide) (if_pos rfl).symm (by simp [Observation.memoryEvents]) fun {loc T'} htouch => ?_
    -- the task is listed at the lock it waits for, which has a location since
    obtain ⟨old, hold, hmem⟩ := hg.waits.listed hf hs
    obtain rfl := htouch.old hold
    obtain ⟨P, hfirst, hsecond⟩ := hg.acquire hl hroom hturn hwants htouch (by simp [hs]) rfl hfree
      (by rw [touch_holders, hm])
    exact recordLockAcquired_brings (List.contains_iff_mem.mpr hmem) hfirst hsecond
  | @joined f other target hid hs ho hend =>
    obtain ⟨t, rfl, hf⟩ := exists_task hid
    obtain ⟨u, rfl, hu⟩ := exists_task ho
    have hturn :
        m.Turn (m.setTask (t + 1) { f with state := .ready, position := f.position + 1 }) t f _
          [] :=
      Machine.turn hf rfl
    have hwants : ∀ lock, ¬f.Wants lock := by
      rintro lock (hw | hw | ⟨hw, -⟩) <;> rw [hs] at hw <;> cases hw
    refine h.still hturn.after (by simp) rfl rfl (Observation.events_threadJoin _)
      (by simp [Observation.threadJoin]) (by simp [Event.new, Event.set]) (Or.inl rfl)
      fun {T'} hsites hφ => ?_
    -- the number in the event fits a word, so it is that of the task
    rw [hg.wrap_task (by omega) hu]
    exact hg.join hl hroom hturn hwants hsites hφ rfl rfl rfl (by simp [hs]) rfl hu hend
  | @refuted f position message hid hs ha =>
    obtain ⟨t, rfl, hf⟩ := exists_task hid
    exact h.report hl hf (by simp [hs]) rfl message
  | @finished f position hst =>
    obtain ⟨t, rfl, hf⟩ := exists_task hst.task
    have hturn : m.Turn (m.setTask (t + 1) { f with position, state := .finished }) t f _ [] :=
      Machine.turn hf rfl
    have hwants : ∀ lock, ¬f.Wants lock := fun lock hw => by cases eq_of_wants hst hw
    refine h.still hturn.after (by simp) rfl rfl Observation.events_threadFinish
      (by simp [Observation.threadFinish]) (by simp [Event.new]) (Or.inl rfl)
      fun {T'} hsites hφ => ?_
    exact hg.marker hl hroom hturn hwants hsites hφ rfl rfl rfl (by simp [hst.ready]) (by simp) rfl
      rfl (by simp [Event.new]) (by simp [Event.new]) (by simp) fun he =>
        recordMarker_brings_finish he rfl
  | @read f position shared into m₁ hst hm =>
    obtain ⟨t, rfl, hf⟩ := exists_task hst.task
    have hturn : m.Turn (m₁.touch (.shared shared)).2 t f _ [] :=
      Machine.turn hf (by rw [touch_tasks, hm])
    have hwants : ∀ lock, ¬f.Wants lock := fun lock hw => by cases eq_of_wants hst hw
    refine h.memory hturn.after hst.ready (by rw [hm]; rfl) (by rw [hm]; rfl) hfits (fun n => rfl)
      (by decide) (if_neg (by decide)).symm (by simp [Observation.memoryEvents])
      fun {loc T'} htouch => ?_
    exact hg.read hl hroom hturn hst.ready hst.ready hwants htouch (by rw [touch_holders, hm]; rfl)
  | @write f position shared value v m₁ hst hv hm =>
    obtain ⟨t, rfl, hf⟩ := exists_task hst.task
    have hturn : m.Turn (m₁.touch (.shared shared)).2 t f _ [] :=
      Machine.turn hf (by rw [touch_tasks, hm])
    have hwants : ∀ lock, ¬f.Wants lock := fun lock hw => by cases eq_of_wants hst hw
    refine h.memory hturn.after hst.ready (by rw [hm]; rfl) (by rw [hm]; rfl) hfits (fun n => rfl)
      (by decide) (if_neg (by decide)).symm (by simp [Observation.memoryEvents])
      fun {loc T'} htouch => ?_
    exact hg.write hl hroom hturn hst.ready hst.ready hwants htouch (by rw [touch_holders, hm]; rfl)
  | @fetchAdd f position shared into value delta n sum m₁ hst hv hold hsum hm =>
    obtain ⟨t, rfl, hf⟩ := exists_task hst.task
    have hturn : m.Turn (m₁.touch (.shared shared)).2 t f _ [] :=
      Machine.turn hf (by rw [touch_tasks, hm])
    have hwants : ∀ lock, ¬f.Wants lock := fun lock hw => by cases eq_of_wants hst hw
    refine h.memory_pair hturn.after (by rw [hm]; rfl) (by rw [hm]; rfl) hfits (fun n => rfl)
      (by decide) (by decide) (fun n => Or.inr ⟨rfl, hst.ready⟩) fun {loc T'} htouch => ?_
    exact hg.update hl hroom hturn hst.ready hst.ready hwants htouch
      (by rw [touch_holders, hm]; rfl)
  | @lockTaken f position lock m₁ hst htaken hm =>
    obtain ⟨t, rfl, hf⟩ := exists_task hst.task
    have hturn : m.Turn (m₁.touch (.lock lock)).2 t f _ [] :=
      Machine.turn hf (by rw [touch_tasks, hm])
    have hwants : ∀ lock', f.Wants lock' → lock' = lock := fun lock' hw => by
      cases eq_of_wants hst hw; rfl
    refine h.memory_pair hturn.after (by rw [hm]; rfl) (by rw [hm]; rfl) hfits (fun n => rfl)
      (by decide) (by decide) (fun n => Or.inl ⟨rfl, lock, rfl⟩) fun {loc T'} htouch => ?_
    -- the acquisition is recorded although the lock is taken, and the task waits from then on
    exact hg.await hl hturn hwants htouch hst.ready rfl htaken (by rw [touch_holders, hm]; rfl)
  | @lockFree f position lock m₁ hst hfree hm =>
    obtain ⟨t, rfl, hf⟩ := exists_task hst.task
    have hturn : m.Turn (m₁.touch (.lock lock)).2 t f _ [] :=
      Machine.turn hf (by rw [touch_tasks, hm])
    have hwants : ∀ lock', f.Wants lock' → lock' = lock := fun lock' hw => by
      cases eq_of_wants hst hw; rfl
    refine h.memory_pair hturn.after (by rw [hm]; rfl) (by rw [hm]; rfl) hfits (fun n => rfl)
      (by decide) (by decide) (fun n => Or.inr ⟨rfl, hst.ready⟩) fun {loc T'} htouch => ?_
    exact hg.acquire hl hroom hturn hwants htouch (by simp [hst.ready]) hst.ready hfree
      (by rw [touch_holders, hm])
  | @unlock f position lock m₁ hst hheld hm =>
    obtain ⟨t, rfl, hf⟩ := exists_task hst.task
    have hturn : m.Turn (m₁.touch (.lock lock)).2 t f _ [] :=
      Machine.turn hf (by rw [touch_tasks, hm])
    have hwants : ∀ lock', ¬f.Wants lock' := fun lock' hw => by cases eq_of_wants hst hw
    refine h.memory hturn.after hst.ready (by rw [hm]; rfl) (by rw [hm]; rfl) hfits (fun n => rfl)
      (by decide) (if_neg (by decide)).symm (by simp [Observation.memoryEvents])
      fun {loc T'} htouch => ?_
    exact hg.release hl hroom hturn htouch hst.ready hst.ready hwants
      (by rw [Dictionary.has, hheld]; rfl) (by rw [touch_holders, hm])
  | @unlockRefused f position lock message hst hheld =>
    obtain ⟨t, rfl, hf⟩ := exists_task hst.task
    exact h.report hl hf (by simp [hst.ready]) rfl message
  | @spawn f position thread hst =>
    obtain ⟨t, rfl, hf⟩ := exists_task hst.task
    have hwants : ∀ lock, ¬f.Wants lock := fun lock hw => by cases eq_of_wants hst hw
    have hturn : m.Turn ((m.setTask (t + 1) { f with
          position := position + 1
          children := f.children.set thread (m.tasks.length + 1) }).spawn thread) t f _
        [.start thread ((m.program.threads.get? thread).getD [])] :=
      ⟨hf, congrArg (· ++ _) (tasks_setTask m t _)⟩
    refine h.still hturn.after (by simp [hst.ready]) rfl rfl (Observation.events_threadStart _)
      (by simp [Observation.threadStart]) (by simp [Event.new, Event.set]) (Or.inl rfl)
      fun {T'} hsites hφ => ?_
    rw [hg.wrap_task (by omega) hf]
    exact hg.spawn hl hroom hturn hwants hsites hφ rfl rfl rfl hst.ready hst.ready rfl
  | @joins f position thread target hst hchild =>
    obtain ⟨t, rfl, hf⟩ := exists_task hst.task
    -- nothing is recorded until the other task has finished
    exact h.quiet hl hf rfl (Or.inr rfl) (by simp [hst.ready]) (by simp) (by simp) (by simp)
      fun lock hw => by cases eq_of_wants hst hw
  | @joinRefused f position thread message hst hchild =>
    obtain ⟨t, rfl, hf⟩ := exists_task hst.task
    exact h.report hl hf (by simp [hst.ready]) rfl message
  | @assume f position condition holds hst hv =>
    obtain ⟨t, rfl, hf⟩ := exists_task hst.task
    have hwants : ∀ lock, ¬f.Wants lock := fun lock hw => by cases eq_of_wants hst hw
    have hturn : m.Turn (m.setTask (t + 1) (if holds then { f with position := position + 1 }
        else { f with position, state := .parked })) t f _ [] := Machine.turn hf rfl
    -- the event says whether the task goes on or parks
    have hholds : ((Event.new t .assume .none).set Event.resultName (.bool holds)).holds =
        holds := by
      rw [Event.holds, Attributes.bool?, Event.set, Dictionary.get?_set_self]
      rfl
    refine h.still hturn.after (by cases holds <;> simp [hst.ready]) rfl rfl
      (Observation.events_assume holds) (by simp [Observation.assume])
      (by simp [Event.new, Event.set]) (Or.inr rfl)
      fun {T'} hsites hφ => ?_
    refine hg.marker hl hroom hturn hwants hsites hφ rfl rfl rfl (by simp [hst.ready]) ?_ rfl rfl
      (by simp [Event.new, Event.set]) ?_ ?_ fun he => recordAssume_brings he
    · cases holds <;> simp [hst.ready]
    · cases holds <;> simp [hst.ready, Event.new, Event.set]
    · rw [hholds]
      cases holds <;> simp [hst.ready, Event.new, Event.set]

end Tracks

end Engine

end Interleaving
