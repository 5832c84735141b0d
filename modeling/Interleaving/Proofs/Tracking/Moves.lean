import Interleaving.Proofs.Machine.Rests
import Interleaving.Proofs.Tracking.Runs

/-!
# The events of moves

A move shows one event of its task, the two halves of an atomic update or of a lock acquisition, or
the start of the task that it spawns (`Interleaving.Machine.CanMove.shows`). So the key of a move,
which is that of its first event, tells the keys of all its events
(`Interleaving.Machine.Move.keys`).
-/

namespace Interleaving

theorem Observation.threadJoin_inj {task target target' : Int}
    (h : Observation.threadJoin task target = .threadJoin task target') : target = target' := by
  have hparameters := congrArg (fun o => o.parameters.get? Event.joinedTaskName) h
  unfold Observation.threadJoin at hparameters
  dsimp only at hparameters
  rw [Dictionary.get?_set_self, Dictionary.get?_set_self] at hparameters
  exact Attribute.int.inj (Option.some.inj hparameters)

namespace Machine

variable {m : Machine} {x : Move} {number : Place → Location} {id target : Int} {t : TaskFrame}

/-- Whether a step is two events. -/
def Report.pairs : Report → Bool
  | .accesses .readModifyWrite _ => true
  | .accesses .lockAcquire _ => true
  | _ => false

/-- The keys of the events of a move. -/
def Move.keys (x : Move) : List Key :=
  if x.effect.report.pairs then [x.key, x.key.next] else [x.key]

/-- **The events of a move**: one of its own task, two halves, or the start of another task. -/
inductive Move.Shows (x : Move) : List Event → Prop
  | own {e : Event} (pairs : x.effect.report.pairs = false) (spawned : x.effect.spawned = none)
      (task : e.task + 1 = x.task)
      (kind : e.kind ≠ .threadStart ∧ e.kind ≠ .block ∧ e.kind.isExclusiveRead = false)
      (joins : e.kind = .threadJoin ↔ x.frame.joins?.isSome = true)
      (joined : ∀ target, x.frame.joins? = some target →
        e.joinedTask? = some (Word.wrap (target - 1))) : Shows x [e]
  | pair {e e' : Event} (pairs : x.effect.report.pairs = true) (spawned : x.effect.spawned = none)
      (joins : x.frame.joins? = none) (task : e.task + 1 = x.task) (task' : e'.task + 1 = x.task)
      (kind : e.kind.isExclusiveRead = true) (kind' : e.kind.pairsWith e'.kind = true) :
      Shows x [e, e']
  | start {e : Event} (pairs : x.effect.report.pairs = false)
      (spawned : x.effect.spawned.isSome = true) (joins : x.frame.joins? = none)
      (task : e.task = x.key.task) (kind : e.kind = .threadStart)
      (spawner : e.startedBy? = some (Word.wrap (x.task - 1))) : Shows x [e]

/-- A task joins another one in a move only if it is about to. -/
theorem joins?_of_settle {observer : Int} (hready : t.state = .ready)
    (h : (m.settle id t).report = .shows (.threadJoin observer target)) :
    t.joins?.isSome = true := by
  cases hjoins : t.joins? with
  | some _ => rfl
  | none =>
    rw [settle_of_not_joins hjoins, effect_of_ready hready] at h
    revert h
    unfold effectReady
    split
    · rintro ⟨⟩
    · rintro ⟨⟩
    · split
      · rintro ⟨⟩
      · rename_i i _
        cases i <;> simp only [effectOf] <;> (repeat' split) <;> rintro ⟨⟩

/-- The events of a step on a place. -/
theorem Effect.events_of_accesses {e : Effect} {u : Nat} {kind : Observation.Kind} {p : Place}
    (hreport : e.report = .accesses kind p) (hkind : kind ≠ .lockAcquired) (hnumber : 0 < number p)
    (hevents : Observation.memoryEvents u (number p) kind ≠ []) :
    e.events (u + 1) number = Observation.memoryEvents u (number p) kind := by
  rw [Effect.events, hreport]
  show List.flatMap _ [_] = _
  rw [List.flatMap_singleton, Observation.recorded_memory hnumber (if_neg hkind).symm hevents]

/-- The events of any other step. -/
theorem Effect.events_of_shows {e : Effect} {o : Observation} {es : List Event}
    (hreport : e.report = .shows o) (hkind : o.kind ≠ .lockAcquired) (hes : o.events = .ok es) :
    e.events id number = es := by
  rw [Effect.events, hreport]
  show List.flatMap _ [_] = _
  rw [List.flatMap_singleton, Observation.recorded_of_events hkind hes]

namespace CanMove

variable (h : m.CanMove x)
include h

theorem report_of_joins (hjoins : x.frame.joins? = some target) :
    x.effect.report = .shows (.threadJoin x.task target) := by
  rw [← h.settles, settle_of_joins hjoins]

/-- A move that spawns a task shows the start of this task. -/
theorem report_of_spawned (hspawned : x.effect.spawned.isSome = true) :
    x.effect.report = .shows (.threadStart (x.key.task + 1) x.task) := by
  obtain ⟨thread, hthread⟩ := Option.isSome_iff_exists.mp hspawned
  have hjoins : x.frame.joins? = none := by
    cases hjoins : x.frame.joins? with
    | none => rfl
    | some target =>
      rw [← h.settles, settle_of_joins hjoins] at hthread
      cases hthread
  have hkey := h.key
  rw [if_pos hspawned] at hkey
  have hsettles := h.settles
  rw [settle_of_not_joins hjoins] at hsettles
  rw [← hsettles] at hthread ⊢
  rw [effect_of_next h.ready (next?_of_spawned hthread), hkey]
  rfl

theorem joins?_eq_none (hreport : ∀ target, x.effect.report ≠ .shows (.threadJoin x.task target)) :
    x.frame.joins? = none := by
  cases hjoins : x.frame.joins? with
  | none => rfl
  | some target => exact absurd (h.report_of_joins hjoins) (hreport target)

/-- A move that is one event of its task, and no join. -/
theorem shows_own {e : Event} (heq : x.events number = [e]) (hpairs : x.effect.report.pairs = false)
    (hspawned : x.effect.spawned = none) (htask : e.task + 1 = x.task)
    (hkind : (e.kind ≠ .threadStart ∧ e.kind ≠ .block ∧ e.kind.isExclusiveRead = false) ∧
      e.kind ≠ .threadJoin)
    (hreport : ∀ target, x.effect.report ≠ .shows (.threadJoin x.task target)) :
    x.Shows (x.events number) := by
  have hnone := h.joins?_eq_none hreport
  rw [heq]
  refine .own hpairs hspawned htask hkind.1 (by simp [hkind.2, hnone]) fun target htarget => ?_
  rw [hnone] at htarget
  cases htarget

/-- **What a move shows.** -/
theorem shows (hnumber : ∀ p, x.effect.report.place? = some p → 0 < number p) :
    x.Shows (x.events number) := by
  obtain ⟨t, htask⟩ : ∃ t : Nat, x.task = t + 1 := ⟨(x.task - 1).toNat, by have := h.one_le; omega⟩
  obtain ⟨task, frame, e, k⟩ := x
  obtain rfl : task = t + 1 := htask
  have hmove : e.IsMove (t + 1) := h.move
  have haccess : ∀ {kind p}, e.report = .accesses kind p → kind ≠ .lockAcquired →
      Observation.memoryEvents t (number p) kind ≠ [] →
      e.events (t + 1) number = Observation.memoryEvents t (number p) kind :=
        fun hreport hkind hevents =>
    Effect.events_of_accesses hreport hkind (hnumber _ (by rw [hreport]; rfl)) hevents
  have hshows : ∀ {o es}, e.report = .shows o → o.kind ≠ .lockAcquired → o.events = .ok es →
      e.events (t + 1) number = es := Effect.events_of_shows
  cases hmove with
  | read name ready =>
    have heq := haccess rfl (by decide) (List.cons_ne_nil _ _)
    exact h.shows_own heq rfl rfl rfl (by simp [Event.new, Kind.isExclusiveRead]) (by simp)
  | write name v ready =>
    have heq := haccess rfl (by decide) (List.cons_ne_nil _ _)
    exact h.shows_own heq rfl rfl rfl (by simp [Event.new, Kind.isExclusiveRead]) (by simp)
  | update name v ready =>
    have heq := haccess rfl (by decide) (List.cons_ne_nil _ _)
    rw [Move.events, heq]
    exact .pair rfl rfl (h.joins?_eq_none (by simp)) rfl rfl rfl rfl
  | acquire lock ready =>
    have heq := haccess rfl (by decide) (List.cons_ne_nil _ _)
    rw [Move.events, heq]
    exact .pair rfl rfl (h.joins?_eq_none (by simp)) rfl rfl rfl rfl
  | release lock ready =>
    have heq := haccess rfl (by decide) (List.cons_ne_nil _ _)
    exact h.shows_own heq rfl rfl rfl (by simp [Event.new, Kind.isExclusiveRead]) (by simp)
  | spawn child thread ready =>
    -- the task that is spawned comes behind all others
    have hkey : k.task + 1 = (m.tasks.length : Int) + 1 := h.key
    have hreport : Report.shows (.threadStart child (t + 1)) =
        .shows (.threadStart (k.task + 1) (t + 1)) :=
      h.report_of_spawned rfl
    obtain rfl : child = m.tasks.length + 1 :=
      (congrArg Observation.task (Report.shows.inj hreport)).trans hkey
    have heq :=
      hshows rfl (by simp [Observation.threadStart]) (Observation.events_threadStart (t + 1))
    rw [Move.events, heq]
    refine .start rfl rfl
      (h.joins?_eq_none (by simp [Observation.threadStart, Observation.threadJoin]))
      (show (m.tasks.length : Int) = k.task by omega) rfl ?_
    rw [Event.startedBy?, Attributes.task?, Event.set, Dictionary.get?_set_self]
  | join target ready =>
    have heq := hshows rfl (by simp [Observation.threadJoin]) (Observation.events_threadJoin target)
    have hjoins : frame.joins?.isSome = true :=
      joins?_of_settle h.ready (congrArg Effect.report h.settles)
    rw [Move.events, heq]
    refine .own rfl rfl rfl (by simp [Event.new, Event.set, Kind.isExclusiveRead])
      (iff_of_true rfl hjoins) fun target' htarget => ?_
    have hreport : Report.shows (.threadJoin (t + 1) target) =
        .shows (.threadJoin (t + 1) target') :=
      h.report_of_joins htarget
    rw [← Observation.threadJoin_inj (Report.shows.inj hreport)]
    rw [Event.joinedTask?, Attributes.task?, Event.set, Dictionary.get?_set_self]
  | assume holds state =>
    exact h.shows_own (hshows rfl (by simp [Observation.assume]) (Observation.events_assume holds))
      rfl rfl rfl (by simp [Event.new, Event.set, Kind.isExclusiveRead])
      (by simp [Observation.assume, Observation.threadJoin])
  | finish finished =>
    exact h.shows_own
      (hshows rfl (by simp [Observation.threadFinish]) Observation.events_threadFinish) rfl rfl
      rfl (by simp [Event.new, Kind.isExclusiveRead])
        (by simp [Observation.threadFinish, Observation.threadJoin])

end CanMove

end Machine

end Interleaving
