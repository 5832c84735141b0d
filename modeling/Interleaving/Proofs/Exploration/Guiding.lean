import Interleaving.Exploration.Scheduler
import Interleaving.Proofs.Exploration.Frame
import Interleaving.Proofs.Graph.Pairs

/-!
# The schedule that is replayed

A schedule is made from the order that explains a consistent graph. That order has no blocking
labels (`Interleaving.Graph.not_blocking_of_consistentOrder`), so **a schedule never asks to block
anything** (`Interleaving.Engine.Steers`), and while it lasts an event that touches memory or the
life of a thread is never refused (`Interleaving.Engine.update_haltError`).
-/

namespace Interleaving

/-! ### Orders without labels -/

namespace Graph

/-- A graph has an order that explains it when its chains pass and the graph with the edges that
they add has a topological order. -/
theorem consistentOrder_eq_some {g : Graph} {l : List Node} :
    g.consistentOrder = .ok (some l) ↔
      ∃ c sorted, checkChains g.copy.chains g.copy = .ok (.consistent c) ∧
        c.topologicalOrder = .ok sorted ∧ l = placePairs sorted [] sorted := by
  unfold consistentOrder
  cases hchains : checkChains g.copy.chains g.copy with
  | error e => simp [bind, Except.bind, hchains]
  | ok v =>
    cases v with
    | inconsistent => simp [bind, Except.bind, pure, Except.pure, hchains]
    | consistent c =>
      cases hsorted : c.topologicalOrder with
      | ok sorted => simp [bind, Except.bind, pure, Except.pure, hchains, hsorted, eq_comm]
      | error e =>
        cases e <;> simp [bind, Except.bind, pure, Except.pure, hchains, hsorted, throw, throwThe,
          MonadExceptOf.throw]

/-- A topological order lists events only. -/
theorem isEvent_of_topologicalOrder {g : Graph} {sorted : List Node}
    (h : g.topologicalOrder = .ok sorted) {n : Node} (hn : n ∈ sorted) : isEvent n = true := by
  unfold topologicalOrder at h
  split at h
  · cases h
  · cases h
    exact (List.mem_filter.mp hn).2

/-- **The order that explains a graph has no blocking labels.** -/
theorem not_blocking_of_consistentOrder {g : Graph} {l : List Node}
    (h : g.consistentOrder = .ok (some l)) {n : Node} (hn : n ∈ l) : n.kind ≠ .block := by
  obtain ⟨c, sorted, -, hsorted, rfl⟩ := consistentOrder_eq_some.mp h
  rcases mem_of_mem_placePairs hn with hn | ⟨k, hn⟩
  · have hevent := isEvent_of_topologicalOrder hsorted hn
    intro hkind
    simp [isEvent, hkind, Kind.isBlocking] at hevent
  · cases hn

end Graph

/-! ### Schedules without blocking -/

namespace Schedule

/-- Steps are some of the events. -/
theorem mem_of_mem_steps {events : List Event} {e : Event} (h : e ∈ steps events) : e ∈ events := by
  fun_induction steps events with
  | case1 => exact h
  | case2 => exact h
  | case3 first next more hcompletes ih =>
    rcases List.mem_cons.mp h with rfl | h
    · exact List.mem_cons_self
    · exact List.mem_cons_of_mem _ (List.mem_cons_of_mem _ (ih h))
  | case4 first next more hcompletes ih =>
    rcases List.mem_cons.mp h with rfl | h
    · exact List.mem_cons_self
    · exact List.mem_cons_of_mem _ (ih h)

/-- The directives for events that are no labels run tasks, up to the end. -/
theorem kind_of_mem_entries {events : List Event} (hevents : ∀ e ∈ events, e.kind ≠ .block)
    {prev : Location} {x : ScheduleEntry} (h : x ∈ entries prev events) :
    x.directive.kind = .task ∨ x.directive.kind = .finish := by
  induction events generalizing prev with
  | nil =>
    rw [List.mem_singleton.mp h]
    exact Or.inr rfl
  | cons e more ih =>
    have hmore : ∀ {prev}, x ∈ entries prev more → _ :=
      ih fun e he => hevents e (List.mem_cons_of_mem _ he)
    rw [entries] at h
    split at h
    · rename_i hblock
      exact absurd hblock (hevents e List.mem_cons_self)
    · rcases List.mem_cons.mp h with rfl | h
      · exact Or.inl rfl
      · exact hmore h
    · rcases List.mem_cons.mp h with rfl | h
      · exact Or.inl rfl
      · rcases List.mem_cons.mp h with rfl | h
        · exact Or.inl rfl
        · exact hmore h
    · rcases List.mem_cons.mp h with rfl | h
      · exact Or.inl rfl
      · exact hmore h

/-- **A schedule for events that are no labels only runs tasks.** -/
theorem kind_of_mem_ofEvents {events : List Event} (hevents : ∀ e ∈ events, e.kind ≠ .block)
    {x : ScheduleEntry} (h : x ∈ ofEvents events) :
    x.directive.kind = .task ∨ x.directive.kind = .finish := by
  unfold ofEvents at h
  split at h
  · rw [List.mem_singleton.mp h]
    exact Or.inr rfl
  · exact kind_of_mem_entries (fun e he => hevents e (List.mem_of_mem_drop (mem_of_mem_steps he))) h

end Schedule

namespace Engine

/-- What is left of the schedule only runs tasks. -/
def Steers (a : Engine) : Prop :=
  ∀ x ∈ a.guiding, x.directive.kind = .task ∨ x.directive.kind = .finish

/-- A property of whatever a computation gives. -/
def Yields {α : Type} (x : Step α) (P : α → Prop) : Prop :=
  ∀ a y a', x.run a = .ok y a' → P y

theorem Yields.trivial {α : Type} (x : Step α) : Yields x fun _ => True := fun _ _ _ _ => True.intro

theorem Yields.bind_of {α β : Type} {x : Step α} {k : α → Step β} {P : α → Prop} {Q : β → Prop}
    (hx : Yields x P) (hk : ∀ y, P y → Yields (k y) Q) : Yields (x >>= k) Q := by
  intro a y a' h
  change EStateM.bind x k a = .ok y a' at h
  unfold EStateM.bind at h
  split at h
  · rename_i z b hxa
    exact hk z (hx a z b hxa) b y a' h
  · cases h

theorem Yields.bind {α β : Type} {x : Step α} {k : α → Step β} {Q : β → Prop}
    (hk : ∀ y, Yields (k y) Q) : Yields (x >>= k) Q :=
  (Yields.trivial x).bind_of fun y _ => hk y

theorem Yields.throw {α : Type} {e : Cause} {P : α → Prop} :
    Yields (MonadExcept.throw e : Step α) P := by
  intro a y a' h
  cases h

theorem Yields.pure {α : Type} {y : α} {P : α → Prop} (hy : P y) :
    Yields (Pure.pure y : Step α) P := by
  intro a z a' h
  cases h
  exact hy

/-- An order without blocking labels, if there is one. -/
def WithoutLabels (order : Option (List Node)) : Prop :=
  ∀ l, order = some l → ∀ n ∈ l, n.kind ≠ .block

theorem currentOrder_yields : Yields currentOrder WithoutLabels := by
  refine Yields.bind fun a => ?_
  split
  · rename_i order horder
    refine Yields.pure ?_
    rintro l rfl n hn
    exact Graph.not_blocking_of_consistentOrder horder hn
  · exact Yields.throw

theorem tryAlternative_yields (item : Alternative) :
    Yields (tryAlternative item) WithoutLabels := by
  unfold tryAlternative
  split
  · split <;> exact Yields.throw
  · split
    · exact Yields.bind fun _ => Yields.bind fun _ => Yields.bind fun _ => Yields.bind fun _ =>
        currentOrder_yields
    · exact Yields.bind fun _ => Yields.bind fun _ => Yields.bind fun _ => currentOrder_yields
    · refine Yields.bind fun _ => Yields.bind fun _ => ?_
      split
      · exact Yields.bind fun _ => Yields.bind fun _ => currentOrder_yields
      · exact Yields.bind fun _ => currentOrder_yields
    · exact Yields.throw

/-- The order that comes of an alternative has no blocking labels. -/
theorem process_yields (item : Alternative) : Yields (process item) WithoutLabels := by
  unfold process
  split
  · exact Yields.bind fun _ => Yields.pure (by simp [WithoutLabels])
  · split
    · exact Yields.throw
    · split
      · exact Yields.throw
      · refine Yields.bind fun _ => (tryAlternative_yields item).bind_of fun order horder => ?_
        dsimp only
        split
        · exact Yields.bind fun _ => Yields.pure horder
        · exact Yields.pure horder

/-- An engine that keeps its plan, or takes steps off the front of it, only runs tasks further
on. -/
theorem Steers.of_subset {a a' : Engine} (h : a.Steers) (hsub : a'.guiding ⊆ a.guiding) :
    a'.Steers :=
  fun x hx => h x (hsub hx)

theorem Steers.of_samePlan {a a' : Engine} (h : a.Steers) (hs : SamePlan a a') : a'.Steers :=
  h.of_subset (by rw [hs.guiding]; exact List.Subset.refl _)

theorem Steers.nextDirective {a : Engine} (h : a.Steers) : a.nextDirective.2.Steers := by
  unfold Engine.nextDirective
  split
  · exact h
  · split
    · split
      · exact h
      · rename_i entry rest hguiding
        exact h.of_subset (by rw [hguiding]; exact List.subset_cons_self entry rest)
    · exact h

theorem steers_resetRun (a : Engine) : a.resetRun.Steers := by
  intro x hx
  cases hx

theorem Steers.followEvent {a : Engine} (h : a.Steers) (head : ScheduleEntry) (e : Event) :
    (a.followEvent head e).2.Steers := by
  have hconsume : (a.consumeEnd head e).guiding ⊆ a.guiding := by
    unfold consumeEnd
    split
    · exact List.drop_subset 1 a.guiding
    · exact List.Subset.refl _
  refine h.of_subset ?_
  unfold Engine.followEvent
  split
  · exact List.Subset.refl _
  · exact List.Subset.refl _
  · dsimp only
    split
    · exact hconsume
    · dsimp only
      repeat' split
      all_goals exact hconsume

/-- The schedule still only runs tasks after an event. -/
theorem Steers.update {a : Engine} (h : a.Steers) (e : Event) : (a.update e).2.Steers := by
  unfold Engine.update
  split
  · exact h
  · split
    · exact h
    · split
      · exact h.followEvent _ e
      · have hresolve : (a.resolveLocation e).2.Steers := by
          unfold resolveLocation
          split
          · exact h
          · exact h
        dsimp only
        split
        · rename_i hrun
          exact hresolve.of_samePlan ((record_keeps _).of_ok hrun)
        · rename_i hrun
          exact hresolve.of_samePlan ((record_keeps _).of_error hrun)

/-- **A new schedule only runs tasks.** -/
theorem Steers.select? {fuel : Nat} {a a' : Engine} {outcome : Except Error Outcome} (h : a.Steers)
    (hs : Engine.select? fuel a = some (outcome, a')) : a'.Steers := by
  induction fuel generalizing a with
  | zero => cases hs
  | succ fuel ih =>
    rw [Engine.select?] at hs
    split at hs
    · cases hs
      exact h
    · rename_i item agenda hpop
      dsimp only at hs
      have hpopped : Steers { a with agenda, popped := a.popped.add item.kind } := h
      split at hs
      · rename_i hrun
        cases hs
        exact hpopped.of_samePlan ((process_keeps item).of_error hrun)
      · rename_i hrun
        exact ih (hpopped.of_samePlan ((process_keeps item).of_ok hrun)) hs
      · rename_i sorted b hrun
        cases hs
        have hlabels := process_yields item _ _ _ hrun sorted rfl
        intro x hx
        refine Schedule.kind_of_mem_ofEvents ?_ hx
        intro e he
        obtain ⟨n, hn, rfl⟩ := List.mem_map.mp he
        exact hlabels n hn

theorem Steers.startRun? {fuel : Nat} {a a' : Engine} {n : Int} {outcome : Except Error Outcome}
    (h : a.Steers) (hs : a.startRun? fuel n = some (outcome, a')) : a'.Steers := by
  unfold Engine.startRun? at hs
  split at hs
  · cases hs
    exact h
  · split at hs
    · cases hs
      exact h
    · exact Steers.select? (a :=
        { a with locations := a.locations.clearAliases, isGuided := true }) h hs

/-- **What ends a run with an error is an error of the program**, for events that touch memory or
the life of a thread. -/
theorem update_haltError {a : Engine} (h : a.Steers) {e : Event} {message : String}
    (he : e.kind = .error ∨ e.kind = .finish ∨ e.hasLocation = true)
    (hu : (a.update e).1 = .ok (.haltError message)) : e.kind = .error ∧ message = e.message := by
  unfold Engine.update at hu
  split at hu
  · rename_i hkind
    cases hu
    exact ⟨hkind, rfl⟩
  · rename_i hkind
    split at hu
    · cases hu
    · rename_i hfinish
      have hloc : e.hasLocation = true := (he.resolve_left hkind).resolve_left hfinish
      split at hu
      · rename_i head rest hguided hguiding
        have hhead := h head (by rw [hguiding]; exact List.mem_cons_self)
        unfold followEvent at hu
        rcases hhead with hhead | hhead
        · simp [hhead, hloc] at hu
        · simp [hhead, hloc] at hu
      · dsimp only at hu
        split at hu <;> cases hu

end Engine

end Interleaving
