import Interleaving.Event.Observation

/-!
# What a report becomes

The events of a report can all be recorded (`Interleaving.Event.Observed.recordable`): they belong
to a task, none of them is a label, and those that concern memory or a lock have a location.
-/

namespace Interleaving

variable {e : Event} {o : Observation} {es : List Event} {task : Int} {kind : Kind} {loc : Location}

/-- An event that a running program can bring about. -/
def Event.Observed (e : Event) : Prop := ∃ o : Observation, ∃ es, o.events = .ok es ∧ e ∈ es

/-- The kinds of events that concern memory or a lock. -/
def Kind.touches (kind : Kind) : Bool := kind.isRead || kind.isWrite || kind = .lockAcquired

/-- **An event that can be recorded**: it belongs to a task, it is not a label, and if it concerns
memory or a lock, it has a location. -/
structure Event.Recordable (e : Event) : Prop where
  task : 0 ≤ e.task
  kind : e.kind ≠ .block
  located : e.kind.touches = true → e.location ≠ .none

namespace Observation

/-- A location that a report carries is positive. -/
theorem location?_pos (h : o.location? = .ok loc) : 0 < loc := by
  unfold location? at h
  split at h
  · rename_i n _
    by_cases hn : n ≤ 0
    · rw [if_pos hn] at h
      cases h
    · rw [if_neg hn] at h
      cases h
      exact Int.not_le.mp hn
  · cases h

/-- The value that a report carries changes neither the task, the kind nor the location of a
write. -/
theorem withValue_task (o : Observation) (e : Event) : (o.withValue e).task = e.task := by
  unfold withValue
  split <;> rfl

theorem withValue_kind (o : Observation) (e : Event) : (o.withValue e).kind = e.kind := by
  unfold withValue
  split <;> rfl

theorem withValue_location (o : Observation) (e : Event) :
    (o.withValue e).location = e.location := by
  unfold withValue
  split <;> rfl

end Observation

namespace Event

theorem recordable_new (htask : 0 ≤ task) (hkind : kind ≠ .block)
    (hloc : kind.touches = true → loc ≠ .none) : (new task kind loc).Recordable :=
  ⟨htask, hkind, hloc⟩

theorem Recordable.set (h : e.Recordable) (name : String) (v : Attribute) :
    (e.set name v).Recordable :=
  ⟨h.task, h.kind, h.located⟩

theorem Recordable.withValue (h : e.Recordable) (o : Observation) : (o.withValue e).Recordable := by
  refine ⟨?_, ?_, ?_⟩
  · rw [o.withValue_task]
    exact h.task
  · rw [o.withValue_kind]
    exact h.kind
  · rw [o.withValue_kind, o.withValue_location]
    exact h.located

/-- The events of a step on memory can be recorded if they can at any location that there is. -/
theorem recordable_of_memory {f : Location → List Event} (h : o.location?.map f = .ok es)
    (hf : ∀ loc, loc ≠ .none → ∀ e ∈ f loc, e.Recordable) (he : e ∈ es) : e.Recordable := by
  cases hloc : o.location? with
  | error cause =>
    rw [hloc] at h
    cases h
  | ok loc =>
    rw [hloc] at h
    cases h
    exact hf loc (Int.ne_of_gt (Observation.location?_pos hloc)) e he

/-- **Whatever a report becomes can be recorded.** -/
theorem Observed.recordable (h : e.Observed) : e.Recordable := by
  obtain ⟨o, es, ho, he⟩ := h
  unfold Observation.events at ho
  split at ho
  · cases ho
  · rename_i htask
    have hnew : ∀ {kind loc}, kind ≠ .block → (kind.touches = true → loc ≠ .none) →
        (Event.new (o.task - 1) kind loc).Recordable := recordable_new (by omega)
    have honly : ∀ {e'} {x : Except Observation.Error (List Event)}, x = .ok es → x = .ok [e'] →
        e'.Recordable →
        e.Recordable := by
      intro e' x heq hx h
      cases heq.symm.trans hx
      rwa [List.mem_singleton.mp he]
    dsimp only at ho
    cases hkind : o.kind with
    | threadStart | threadJoinComplete | assume =>
      rw [hkind] at ho
      dsimp only at ho
      split at ho
      · refine honly ho rfl ((hnew ?_ ?_).set ..) <;> decide
      · cases ho
    | threadFinish | halt =>
      rw [hkind] at ho
      refine honly ho rfl (hnew ?_ ?_) <;> decide
    | assertFailure =>
      rw [hkind] at ho
      refine honly ho rfl ((hnew ?_ ?_).set ..) <;> decide
    | read | lockAcquired | lockRelease =>
      rw [hkind] at ho
      refine recordable_of_memory ho (fun loc hloc e he => ?_) he
      rw [List.mem_singleton.mp he]
      exact hnew (by decide) fun _ => hloc
    | write =>
      rw [hkind] at ho
      refine recordable_of_memory ho (fun loc hloc e he => ?_) he
      rw [List.mem_singleton.mp he]
      exact (hnew (by decide) fun _ => hloc).withValue o
    | readModifyWrite =>
      rw [hkind] at ho
      refine recordable_of_memory ho (fun loc hloc e he => ?_) he
      rcases List.mem_cons.mp he with rfl | he
      · exact hnew (by decide) fun _ => hloc
      · rw [List.mem_singleton.mp he]
        exact (hnew (by decide) fun _ => hloc).withValue o
    | lockAcquire =>
      rw [hkind] at ho
      refine recordable_of_memory ho (fun loc hloc e he => ?_) he
      rcases List.mem_cons.mp he with rfl | he
      · exact hnew (by decide) fun _ => hloc
      · rw [List.mem_singleton.mp he]
        exact hnew (by decide) fun _ => hloc
    | other name =>
      rw [hkind] at ho
      cases ho

end Event

end Interleaving
