import Interleaving.Exploration.Selection

/-!
# What recording leaves alone

Recording an event and trying an alternative change the graph and the task that must be blocked, and
they put alternatives on the stack. **They leave alone the schedule that is replayed, the locations
that are known and the count of what was taken off the stack** (`Interleaving.Engine.record_keeps`,
`Interleaving.Engine.process_keeps`), also when they break off.

A computation **supplies** the stack when all it does to an engine besides is to push alternatives,
none of which changes which write is last (`Interleaving.Engine.Supplies`); the property passes from
the parts of a computation to the whole. Recording supplies the stack
(`Interleaving.Engine.record_supplies`). What becomes of an alternative that was taken off it, when
nothing breaks off, is `Interleaving.Engine.Processed`.
-/

namespace Interleaving.Engine

/-- The same schedule to replay, the same locations and the same count of what was taken off the
stack. -/
structure SamePlan (a a' : Engine) : Prop where
  guiding : a'.guiding = a.guiding
  isGuided : a'.isGuided = a.isGuided
  locations : a'.locations = a.locations
  popped : a'.popped = a.popped

theorem SamePlan.refl (a : Engine) : SamePlan a a := ⟨rfl, rfl, rfl, rfl⟩

/-- Whatever keeps the plan twice keeps it. -/
theorem SamePlan.trans {a b c : Engine} (h : SamePlan a b) (h' : SamePlan b c) : SamePlan a c :=
  ⟨h'.guiding.trans h.guiding, h'.isGuided.trans h.isGuided, h'.locations.trans h.locations,
    h'.popped.trans h.popped⟩

/-- Alternatives have been pushed one after the other; the graph and the task that must be blocked
may have changed. -/
structure Pushes (items : List Alternative) (a a' : Engine) : Prop extends SamePlan a a' where
  agenda : a'.agenda = items.foldl Agenda.push a.agenda
  inconsistent : a'.inconsistent = a.inconsistent

theorem Pushes.refl (a : Engine) : Pushes [] a a := ⟨.refl a, rfl, rfl⟩

/-- Alternatives that are pushed later lie on top. -/
theorem Pushes.trans {items items' : List Alternative} {a b c : Engine} (h : Pushes items a b)
    (h' : Pushes items' b c) : Pushes (items ++ items') a c :=
  ⟨h.toSamePlan.trans h'.toSamePlan, by rw [h'.agenda, h.agenda, List.foldl_append],
    h'.inconsistent.trans h.inconsistent⟩

/-- What a step pushes does not depend on the graph it starts from. -/
theorem Pushes.of_graph {items : List Alternative} {a b : Engine} {g : Graph}
    (h : Pushes items { a with graph := g } b) : Pushes items a b :=
  ⟨⟨h.guiding, h.isGuided, h.locations, h.popped⟩, h.agenda, h.inconsistent⟩

/-- None of the alternatives makes a write the last one. -/
def WithoutLast (items : List Alternative) : Prop := ∀ item ∈ items, item.kind ≠ .writeLast

/-- The engine at the end of a computation, whether it broke off or not. -/
def after {α : Type} : EStateM.Result Cause Engine α → Engine
  | .ok _ a => a
  | .error _ a => a

/-- A computation leaves the plan alone. -/
def Keeps {α : Type} (x : Step α) : Prop := ∀ a, SamePlan a (after (x.run a))

/-- A computation pushes alternatives, and none of them makes a write the last one. -/
def Supplies {α : Type} (x : Step α) : Prop :=
  ∀ a, ∃ items, WithoutLast items ∧ Pushes items a (after (x.run a))

namespace Keeps

variable {α : Type}

/-- A step that succeeds keeps the plan. -/
theorem of_ok {x : Step α} (h : Keeps x) {a a' : Engine} {y : α} (hr : x.run a = .ok y a') :
    SamePlan a a' := by
  have hx := h a
  rwa [hr] at hx

/-- A step that fails keeps the plan, too. -/
theorem of_error {x : Step α} (h : Keeps x) {a a' : Engine} {e : Cause}
    (hr : x.run a = .error e a') : SamePlan a a' := by
  have hx := h a
  rwa [hr] at hx

end Keeps

namespace Supplies

variable {α β : Type}

/-- A step that only pushes alternatives keeps the plan. -/
theorem keeps {x : Step α} (h : Supplies x) : Keeps x := fun a => (h a).choose_spec.2.toSamePlan

theorem of_ok {x : Step α} (h : Supplies x) {a a' : Engine} {y : α} (hr : x.run a = .ok y a') :
    ∃ items, WithoutLast items ∧ Pushes items a a' := by
  have hx := h a
  rwa [hr] at hx

/-- Nothing is pushed. -/
theorem of_pushes {x : Step α} (h : ∀ a, Pushes [] a (after (x.run a))) : Supplies x :=
  fun a => ⟨[], fun _ hitem => absurd hitem List.not_mem_nil, h a⟩

theorem pure (x : α) : Supplies (Pure.pure x : Step α) := of_pushes fun a => .refl a

theorem throw (e : Cause) : Supplies (MonadExcept.throw e : Step α) := of_pushes fun a => .refl a

theorem get : Supplies (MonadState.get : Step Engine) := of_pushes fun a => .refl a

/-- Steps that only push alternatives can be made one after the other. -/
theorem bind {x : Step α} {k : α → Step β} (hx : Supplies x) (hk : ∀ y, Supplies (k y)) :
    Supplies (x >>= k) := by
  intro a
  obtain ⟨items, hitems, hp⟩ := hx a
  change ∃ items, WithoutLast items ∧ Pushes items a (after (EStateM.bind x k a))
  unfold EStateM.bind
  change Pushes items a (after (x a)) at hp
  cases hr : x a with
  | ok y a' =>
    rw [hr] at hp
    obtain ⟨items', hitems', hp'⟩ := hk y a'
    exact ⟨items ++ items', List.forall_mem_append.mpr ⟨hitems, hitems'⟩, hp.trans hp'⟩
  | error e a' =>
    rw [hr] at hp
    exact ⟨items, hitems, hp⟩

theorem modifyGraph (f : Graph → Graph) : Supplies (Engine.modifyGraph f) :=
  of_pushes fun _ => ⟨⟨rfl, rfl, rfl, rfl⟩, rfl, rfl⟩

/-- Any alternative but the last place of a write may be pushed. -/
theorem push {item : Alternative} (hkind : item.kind ≠ .writeLast) : Supplies (Engine.push item) :=
  fun _ => ⟨[item], List.forall_mem_singleton.mpr hkind, ⟨rfl, rfl, rfl, rfl⟩, rfl, rfl⟩

theorem requestBlock (task : Int) : Supplies (Engine.requestBlock task) :=
  of_pushes fun _ => ⟨⟨rfl, rfl, rfl, rfl⟩, rfl, rfl⟩

/-- A change of the graph pushes nothing. -/
theorem onGraph (edit : Graph.Edit α) : Supplies (Engine.onGraph edit) := by
  refine of_pushes fun a => ?_
  change Pushes [] a (after (Engine.onGraph edit a))
  unfold Engine.onGraph
  split <;> exact ⟨⟨rfl, rfl, rfl, rfl⟩, rfl, rfl⟩

theorem changeGraph (f : Graph → Except Graph.Error Graph) : Supplies (Engine.changeGraph f) :=
  onGraph _

theorem ask (f : Graph → Except Graph.Error α) : Supplies (Engine.ask f) := by
  refine get.bind fun a => ?_
  split
  · exact pure _
  · exact throw _

end Supplies

/-! ### Recording -/

/-- Each of several alternatives is pushed, all of them made from the current graph. -/
theorem pushEach_run (build : Key → Graph → Alternative) (ks : List Key) (a : Engine) :
    (pushEach build ks).run a =
      .ok () { a with agenda := (ks.map fun k => build k a.graph).foldl Agenda.push a.agenda } := by
  induction ks generalizing a with
  | nil => rfl
  | cons k more ih => exact ih { a with agenda := a.agenda.push (build k a.graph) }

/-- Pushing one alternative for each event pushes no last place of a write. -/
theorem pushEach_supplies {build : Key → Graph → Alternative}
    (hbuild : ∀ k g, (build k g).kind ≠ .writeLast) (ks : List Key) :
    Supplies (pushEach build ks) := by
  intro a
  rw [pushEach_run]
  refine ⟨ks.map fun k => build k a.graph, fun item hitem => ?_, ⟨rfl, rfl, rfl, rfl⟩, rfl, rfl⟩
  obtain ⟨k, -, rfl⟩ := List.mem_map.mp hitem
  exact hbuild k a.graph

theorem maximalRevisits_supplies (write : Key) (reads : List Key) :
    Supplies (maximalRevisits write reads) := by
  induction reads with
  | nil => exact Supplies.pure _
  | cons r more ih =>
    refine Supplies.get.bind fun a => ?_
    split
    · exact Supplies.throw _
    · split
      · exact Supplies.throw _
      · exact ih.bind fun _ => Supplies.pure _

/-- An accepted proposal is pushed under its own kind. -/
theorem pushRevisit_supplies (view : BackwardRevisit)
    {build : Key → Graph → List Event → Alternative}
    (hbuild : ∀ k g es, (build k g es).kind ≠ .writeLast) : Supplies (pushRevisit view build) := by
  unfold pushRevisit
  split
  · exact Supplies.throw _
  · exact Supplies.push (hbuild _ _ _)

theorem pushRevisits_supplies {build : Key → Graph → List Event → Alternative}
    (hbuild : ∀ k g es, (build k g es).kind ≠ .writeLast) (views : List BackwardRevisit) :
    Supplies (pushRevisits build views) := by
  induction views with
  | nil => exact Supplies.pure _
  | cons view more ih => exact (pushRevisit_supplies view hbuild).bind fun _ => ih

/-- Recording a read pushes its other sources. -/
theorem recordRead_supplies (e : Event) : Supplies (recordRead e) := by
  refine (Supplies.onGraph _).bind fun read => Supplies.get.bind fun a => ?_
  dsimp only
  by_cases hlast : a.graph.happensBefore (a.graph.lastWrite e.location) read = true
  · rw [if_pos hlast]
    exact Supplies.modifyGraph _
  · rw [if_neg hlast]
    exact (Supplies.modifyGraph _).bind fun _ =>
      pushEach_supplies (by simp [Alternative.readFrom]) _

/-- Recording a write pushes its other places and the reads that could see it. -/
theorem recordWrite_supplies (e : Event) : Supplies (recordWrite e) := by
  refine (Supplies.onGraph _).bind fun write => (Supplies.ask _).bind fun placings => ?_
  refine (pushEach_supplies (by simp [Alternative.writeBefore]) _).bind fun _ =>
    (Supplies.ask _).bind fun reads => ?_
  refine (maximalRevisits_supplies _ _).bind fun views => ?_
  exact (pushRevisits_supplies (by simp [Alternative.backward]) _).bind fun _ =>
    Supplies.modifyGraph _

theorem pushExclusiveRevisits_supplies (views : List BackwardRevisit) :
    Supplies (pushExclusiveRevisits views) := by
  induction views with
  | nil => exact Supplies.pure _
  | cons view more ih =>
    have hview : Supplies (pushRevisit view Alternative.backward) :=
      pushRevisit_supplies view (by simp [Alternative.backward])
    refine Supplies.get.bind fun a => ?_
    split
    · exact (Supplies.modifyGraph _).bind fun _ => hview.bind fun _ => ih
    · exact hview.bind fun _ => ih

/-- Recording the second half of an update pushes the reads that could see it. -/
theorem recordExclusiveWrite_supplies (e : Event) : Supplies (recordExclusiveWrite e) := by
  refine (Supplies.onGraph _).bind fun write => (Supplies.ask _).bind fun reads => ?_
  refine (maximalRevisits_supplies _ _).bind fun views => ?_
  exact (Supplies.modifyGraph _).bind fun _ => pushExclusiveRevisits_supplies _

/-- Recording a request for a lock pushes the older releases that it could see. -/
theorem recordLockRead_supplies (e : Event) : Supplies (recordLockRead e) := by
  refine Supplies.get.bind fun a => Supplies.get.bind fun b => ?_
  split
  · exact (Supplies.modifyGraph _).bind fun _ => Supplies.requestBlock _
  · refine (Supplies.onGraph _).bind fun read => Supplies.get.bind fun c => ?_
    dsimp only
    split
    · exact Supplies.modifyGraph _
    · exact (Supplies.modifyGraph _).bind fun _ =>
        pushEach_supplies (by simp [Alternative.readFrom]) _

theorem pairedLockRead_supplies (write : Key) : Supplies (pairedLockRead write) := by
  refine Supplies.get.bind fun a => ?_
  dsimp only
  split
  · refine (Supplies.ask _).bind fun read => ?_
    split
    · exact (Supplies.throw _).bind fun _ => Supplies.pure _
    · exact (Supplies.pure _).bind fun _ => Supplies.pure _
  · exact Supplies.throw _

theorem lockRevisits_supplies (write own : Key) (reads : List Key) :
    Supplies (lockRevisits write own reads) := by
  induction reads with
  | nil => exact Supplies.pure _
  | cons r more ih =>
    refine Supplies.get.bind fun a => ?_
    split
    · exact Supplies.throw _
    · split
      · exact Supplies.throw _
      · exact ih
      · refine Supplies.get.bind fun b => ?_
        split
        · exact Supplies.throw _
        · exact ih
        · exact (Supplies.modifyGraph _).bind fun _ => ih.bind fun _ => Supplies.pure _

/-- Recording an acquisition pushes the acquisitions that it could overtake. -/
theorem recordLockWrite_supplies (e : Event) : Supplies (recordLockWrite e) := by
  refine Supplies.get.bind fun a => ?_
  split
  · exact Supplies.pure _
  · refine (Supplies.onGraph _).bind fun write => (Supplies.modifyGraph _).bind fun _ => ?_
    refine (Supplies.ask _).bind fun reads => ?_
    split
    · exact Supplies.modifyGraph _
    · refine (pairedLockRead_supplies _).bind fun own =>
        (lockRevisits_supplies _ _ _).bind fun views => ?_
      exact (pushRevisits_supplies (by simp [Alternative.lockBackward]) _).bind fun _ =>
        Supplies.modifyGraph _

/-- Recording a marker pushes nothing. -/
theorem recordMarker_supplies (e : Event) : Supplies (recordMarker e) := by
  refine (Supplies.onGraph _).bind fun k => ?_
  split
  · refine (Supplies.modifyGraph _).bind fun _ => ?_
    split
    · exact Supplies.changeGraph _
    · exact Supplies.pure _
  · exact Supplies.changeGraph _
  · exact Supplies.pure _

/-- **Recording an event supplies the stack.** -/
theorem record_supplies (e : Event) : Supplies (record e) := by
  unfold record
  split
  · exact recordRead_supplies e
  · exact recordRead_supplies e
  · exact recordWrite_supplies e
  · exact recordExclusiveWrite_supplies e
  · exact recordLockRead_supplies e
  · exact recordLockWrite_supplies e
  · exact (Supplies.onGraph _).bind fun _ => (Supplies.modifyGraph _).bind fun _ =>
      Supplies.modifyGraph _
  · refine Supplies.get.bind fun a => ?_
    split
    · exact (recordLockRead_supplies _).bind fun _ => recordLockWrite_supplies _
    · exact Supplies.pure _
  · refine (Supplies.onGraph _).bind fun _ => ?_
    split
    · exact Supplies.requestBlock _
    · exact Supplies.pure _
  · exact recordMarker_supplies e
  · exact recordMarker_supplies e
  · exact recordMarker_supplies e
  · exact recordMarker_supplies e
  · exact Supplies.throw _

/-- **Recording an event leaves the plan alone.** -/
theorem record_keeps (e : Event) : Keeps (record e) := (record_supplies e).keeps

/-! ### Trying an alternative -/

theorem addAllAgain_supplies (es : List Event) : Supplies (addAllAgain es) := by
  induction es with
  | nil => exact Supplies.pure _
  | cons e more ih =>
    refine Supplies.bind ?_ fun _ => ih
    unfold addAgain
    split
    · exact recordLockRead_supplies e
    · exact recordLockWrite_supplies e
    · exact recordExclusiveWrite_supplies e
    · exact Supplies.throw _

/-- Trying an alternative pushes only what adding events again pushes. -/
theorem tryAlternative_supplies (item : Alternative) : Supplies (tryAlternative item) := by
  unfold tryAlternative
  split
  · split
    · exact Supplies.throw _
    · exact Supplies.throw _
  · split
    · refine (Supplies.changeGraph _).bind fun _ => (Supplies.changeGraph _).bind fun _ => ?_
      refine (Supplies.onGraph _).bind fun _ => (addAllAgain_supplies _).bind fun _ => ?_
      exact Supplies.ask _
    · refine (Supplies.modifyGraph _).bind fun _ => (Supplies.changeGraph _).bind fun _ => ?_
      exact (Supplies.changeGraph _).bind fun _ => Supplies.ask _
    · refine (Supplies.modifyGraph _).bind fun _ => (Supplies.changeGraph _).bind fun _ => ?_
      split
      · exact (Supplies.throw _).bind fun _ => (addAllAgain_supplies _).bind fun _ => Supplies.ask _
      · exact (Supplies.pure _).bind fun _ => (addAllAgain_supplies _).bind fun _ => Supplies.ask _
    · exact Supplies.throw _

/-- Only alternatives with one of three kinds are tried. -/
theorem kind_of_tryAlternative {item : Alternative} {order : Option (List Node)} {a a' : Engine}
    (hr : (tryAlternative item).run a = .ok order a') :
    item.kind = .readFrom ∨ item.kind = .writeBefore ∨ item.kind = .writeLast := by
  unfold tryAlternative at hr
  split at hr
  · split at hr <;> cases hr
  · split at hr
    · exact Or.inl ‹_›
    · exact Or.inr (Or.inl ‹_›)
    · exact Or.inr (Or.inr ‹_›)
    · cases hr

/-- Spreading a backward revisit breaks off at once, or it pushes places for the write, the last
place on top. -/
theorem spread_run (item : Alternative) (a : Engine) :
    (∃ e, (spread item).run a = .error e a) ∨
      ∃ items last, WithoutLast items ∧ last.kind = .writeLast ∧
        (spread item).run a = .ok ()
          { a with agenda := (items ++ [last]).foldl Agenda.push a.agenda } := by
  unfold spread
  split
  · exact Or.inl ⟨_, rfl⟩
  · rename_i write _ g _ _
    split
    · exact Or.inl ⟨_, rfl⟩
    · rename_i placings _
      refine Or.inr ⟨placings.reverse.map fun before => .writeBefore write before g,
        .writeLast write g item.additional, fun i hi => ?_, rfl, ?_⟩
      · obtain ⟨k, -, rfl⟩ := List.mem_map.mp hi
        simp [Alternative.writeBefore]
      · rw [List.foldl_append]
        have hrun := pushEach_run (fun before _ => .writeBefore write before g) placings.reverse a
        change EStateM.bind _ _ a = _
        rw [EStateM.bind, show pushEach _ _ a = _ from hrun]
        rfl
  · exact Or.inl ⟨_, rfl⟩

/-- A backward revisit is spread over the places of its write, or it breaks off at once. -/
theorem process_backward {item : Alternative} (hitem : item.isBackward = true) (a : Engine) :
    (∃ e, (process item).run a = .error e a) ∨
      ∃ items last, WithoutLast items ∧ last.kind = .writeLast ∧
        (process item).run a = .ok none
          { a with agenda := (items ++ [last]).foldl Agenda.push a.agenda } := by
  have hrun : (process item).run a = EStateM.bind (spread item) (fun _ => pure none) a := by
    rw [process, if_pos hitem]
    rfl
  rw [hrun, EStateM.bind]
  rcases spread_run item a with ⟨e, he⟩ | ⟨items, last, hitems, hlast, hok⟩
  · change spread item a = _ at he
    exact Or.inl ⟨e, by rw [he]⟩
  · change spread item a = _ at hok
    refine Or.inr ⟨items, last, hitems, hlast, ?_⟩
    rw [hok]
    rfl

/-- What becomes of an alternative that was taken off the stack. -/
inductive Processed (item : Alternative) : Option (List Node) → Engine → Engine → Prop
  /-- A backward revisit is spread, with one place in which its write is the last one. -/
  | spread {items : List Alternative} {last : Alternative} {a a' : Engine}
      (hitem : item.isBackward = true) (hitems : WithoutLast items) (hlast : last.kind = .writeLast)
      (h : Pushes (items ++ [last]) a a') : Processed item none a a'
  /-- Any other alternative makes a consistent graph. -/
  | found {items : List Alternative} {sorted : List Node} {a a' : Engine}
      (hkind : item.kind = .readFrom ∨ item.kind = .writeBefore ∨ item.kind = .writeLast)
      (hitems : WithoutLast items) (h : Pushes items a a') : Processed item (some sorted) a a'
  /-- Or it does not, and is counted. -/
  | inconsistent {items : List Alternative} {a b : Engine}
      (hkind : item.kind = .readFrom ∨ item.kind = .writeBefore ∨ item.kind = .writeLast)
      (hitems : WithoutLast items) (h : Pushes items a b) :
      Processed item none a { b with inconsistent := b.inconsistent + 1 }

/-- Trying an alternative with its own graph, and counting it when that is inconsistent. -/
theorem process_forward {item : Alternative} (hitem : item.isBackward = false) (a : Engine) :
    (∃ e, (process item).run a = .error e a) ∨
      ∃ g, (process item).run a = match (tryAlternative item).run { a with graph := g } with
        | .error e b => .error e b
        | .ok none b => .ok none { b with inconsistent := b.inconsistent + 1 }
        | .ok (some sorted) b => .ok (some sorted) b := by
  unfold process
  rw [if_neg (by simp [hitem])]
  split
  · exact Or.inl ⟨_, rfl⟩
  · rename_i g _
    split
    · exact Or.inl ⟨_, rfl⟩
    · refine Or.inr ⟨g, ?_⟩
      change EStateM.bind (tryAlternative item) _ { a with graph := g } = _
      unfold EStateM.bind EStateM.run
      rcases tryAlternative item { a with graph := g } with ⟨_ | sorted, b⟩ | ⟨e, b⟩ <;> rfl

/-- **What becomes of an alternative.** -/
theorem processed_of_ok {item : Alternative} {order : Option (List Node)} {a a' : Engine}
    (hr : (process item).run a = .ok order a') : Processed item order a a' := by
  cases hitem : item.isBackward with
  | true =>
    rcases process_backward hitem a with ⟨e, he⟩ | ⟨items, last, hitems, hlast, hrun⟩
    · rw [he] at hr
      cases hr
    · rw [hrun] at hr
      cases hr
      exact .spread hitem hitems hlast ⟨⟨rfl, rfl, rfl, rfl⟩, rfl, rfl⟩
  | false =>
    rcases process_forward hitem a with ⟨e, he⟩ | ⟨g, hrun⟩
    · rw [he] at hr
      cases hr
    · rw [hrun] at hr
      split at hr
      · cases hr
      · rename_i b htry
        cases hr
        obtain ⟨items, hitems, hp⟩ := (tryAlternative_supplies item).of_ok htry
        exact .inconsistent (kind_of_tryAlternative htry) hitems hp.of_graph
      · rename_i sorted b htry
        cases hr
        obtain ⟨items, hitems, hp⟩ := (tryAlternative_supplies item).of_ok htry
        exact .found (kind_of_tryAlternative htry) hitems hp.of_graph

/-- **Trying an alternative leaves the plan alone.** -/
theorem process_keeps (item : Alternative) : Keeps (process item) := by
  intro a
  cases hitem : item.isBackward with
  | true =>
    rcases process_backward hitem a with ⟨e, he⟩ | ⟨items, last, -, -, hrun⟩
    · exact he ▸ .refl a
    · exact hrun ▸ ⟨rfl, rfl, rfl, rfl⟩
  | false =>
    rcases process_forward hitem a with ⟨e, he⟩ | ⟨g, hrun⟩
    · exact he ▸ .refl a
    · have hkeeps := (tryAlternative_supplies item).keeps { a with graph := g }
      rw [hrun]
      generalize (tryAlternative item).run { a with graph := g } = r at hkeeps ⊢
      rcases r with ⟨_ | sorted, b⟩ | ⟨e, b⟩ <;>
        exact ⟨hkeeps.guiding, hkeeps.isGuided, hkeeps.locations, hkeeps.popped⟩

end Interleaving.Engine
