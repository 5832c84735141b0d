import Interleaving.Proofs.Tracking.Reordered

/-!
# What the schedule of a graph lets tasks do

An engine makes a schedule of the events of its graph in the order that explains the graph. Its
entries are the steps of the moves that the graph records
(`Interleaving.Engine.Ledger.tasks_entries`): the two halves of an atomic update or of an
acquisition are one step, a join is two, and the start of a thread is a step of the task that spawns
it. So **the schedule lets the tasks make the moves in the order that explains the graph**
(`Interleaving.Engine.Sorts.taskSchedule`).
-/

namespace Interleaving

open Interleaving.Machine Interleaving.Graph

variable {a : Engine} {m m' m₀ : Machine} {es : List Event} {xs ys : List Move} {x y : Move}
  {k : Key} {p : Place} {ns : List Node} {e e' : Event} {bs : List Event} {loc : Location}

/-! ### Schedules -/

namespace Schedule

/-- The tasks that the entries of a schedule let step. -/
def tasks (entries : List ScheduleEntry) : List Int :=
  (directives entries).filterMap Directive.steps?

theorem steps_cons (h : e.kind.isExclusiveRead = false) : steps (e :: bs) = e :: steps bs := by
  cases bs with
  | nil => rfl
  | cons e' bs =>
    rw [steps, if_neg]
    rw [completes, Bool.and_eq_true]
    rintro ⟨-, hpair⟩
    revert h hpair
    generalize e.kind = kind
    generalize e'.kind = kind'
    cases kind <;> cases kind' <;> decide

/-- The two halves of an atomic step are one step of a schedule. -/
theorem steps_pair (h : completes e e' = true) : steps (e :: e' :: bs) = e :: steps bs := if_pos h

/-- A thread start is a turn of the spawner. -/
theorem tasks_start (h : e.kind = .threadStart) :
    tasks (entries loc (e :: bs)) = Word.wrap (e.startedBy?.getD 0 + 1) :: tasks
      (entries e.location bs) := by
  rw [entries, h]
  rfl

/-- A join takes two turns, one of which waits. -/
theorem tasks_join (h : e.kind = .threadJoin) : tasks (entries loc (e :: bs)) =
    Word.wrap (e.key.task + 1) :: Word.wrap (e.key.task + 1) :: tasks (entries .none bs) := by
  rw [entries, h]
  rfl

/-- Any other event is a turn of its own task. -/
theorem tasks_own (h : e.kind ≠ .threadStart ∧ e.kind ≠ .block ∧ e.kind ≠ .threadJoin) :
    tasks (entries loc (e :: bs)) =
      Word.wrap (e.key.task + 1) :: tasks (entries e.location bs) := by
  obtain ⟨hstart, hblock, hjoin⟩ := h
  rw [entries]
  split
  · exact absurd ‹_› hblock
  · exact absurd ‹_› hstart
  · exact absurd ‹_› hjoin
  · rfl

end Schedule

namespace Engine

namespace Ledger

variable (h : Ledger m₀ a m es xs)
include h

/-- The number of a task is a word. -/
theorem wrap_move (hx : x ∈ xs) :
    Word.wrap x.task = x.task ∧ Word.wrap (x.task - 1) = x.task - 1 := by
  obtain ⟨m', hcan⟩ := h.exists_canMove hx
  obtain ⟨t, htask⟩ : ∃ t : Nat, x.task = t + 1 :=
    ⟨(x.task - 1).toNat, by have := hcan.one_le; omega⟩
  have hbegun := (h.tracks.tracks.stage t).begun.mp (h.threaded.begun x hx htask)
  have hlt := (List.getElem?_eq_some_iff.mp (Option.isSome_iff_exists.mp hbegun).choose_spec).1
  have hle := h.tracks.tracks.length_tasks
  have hroom := h.recorded.bounded
  constructor
  all_goals
    refine Word.wrap_of_fits ?_
    rw [Word.fits, Bool.and_eq_true, decide_eq_true_eq, decide_eq_true_eq, Word.least,
      Word.greatest]
    omega

/-- **The entries of the events of a move** are its steps. -/
theorem tasks_move (hx : x ∈ xs) (hkeys : bs.map Event.key = x.keys)
    (hevent : ∀ e ∈ bs, a.graph.event? e.key = some e) (loc : Location) (more : List Event) :
    ∃ loc', Schedule.tasks (Schedule.entries loc (Schedule.steps (bs ++ more))) =
      x.steps ++ Schedule.tasks (Schedule.entries loc' (Schedule.steps more)) := by
  obtain ⟨m', hcan⟩ := h.exists_canMove hx
  obtain ⟨hwrap, hwrap'⟩ := h.wrap_move hx
  have hkey := hcan.key
  have hshows := h.shows hx
  have hfaces := h.faces x hx
  generalize (x.events fun p => (m.touch p).1) = shown at hshows hfaces
  -- an entry depends on what the face of an event shows, which is that of the move
  have hsame : ∀ {b e : Event} {k : Key}, b ∈ bs → b.key = k → a.graph.face k = some (faceOf e) →
      b.kind = e.kind ∧ b.startedBy? = e.startedBy? := by
    rintro b e k hb rfl hface
    rw [face, hevent b hb, Option.map_some, Option.some_inj, faceOf, faceOf, Face.mk.injEq] at hface
    exact ⟨hface.1, hface.2.2.2⟩
  cases hshows with
  | @own e hpairs hspawned _ hkind hjoins _ =>
    rw [Move.keys, if_neg (by simpa using hpairs)] at hfaces hkeys
    obtain ⟨b, rfl, hb⟩ := List.map_eq_singleton_iff.mp hkeys
    obtain ⟨hsamekind, -⟩ := hsame List.mem_cons_self hb (List.cons.inj hfaces).1
    rw [hspawned] at hkey
    have htask : Word.wrap (b.key.task + 1) = x.task := by
      rw [hb, show x.key.task + 1 = x.task from hkey, hwrap]
    rw [← hsamekind] at hkind hjoins
    rw [List.singleton_append, Schedule.steps_cons hkind.2.2, Move.steps]
    by_cases hjoin : b.kind = .threadJoin
    · rw [Schedule.tasks_join hjoin, htask, if_pos (hjoins.mp hjoin)]
      exact ⟨_, rfl⟩
    · rw [Schedule.tasks_own ⟨hkind.1, hkind.2.1, hjoin⟩, htask,
        if_neg fun hj => hjoin (hjoins.mpr hj)]
      exact ⟨_, rfl⟩
  | @pair e e' hpairs hspawned hjoins _ _ hkind hkind' =>
    rw [Move.keys, if_pos hpairs] at hfaces hkeys
    obtain ⟨b, bs, rfl, hb, hbs⟩ := List.map_eq_cons_iff.mp hkeys
    obtain ⟨b', rfl, hb'⟩ := List.map_eq_singleton_iff.mp hbs
    obtain ⟨hsamekind, -⟩ := hsame List.mem_cons_self hb (List.cons.inj hfaces).1
    obtain ⟨hsamekind', -⟩ := hsame (by simp) hb' (List.cons.inj (List.cons.inj hfaces).2).1
    rw [← hsamekind] at hkind hkind'
    rw [← hsamekind'] at hkind'
    -- the two events make one entry
    have hcompletes : Schedule.completes b b' = true := by
      rw [Schedule.completes, hb, hb', hkind', Bool.and_true]
      exact decide_eq_true rfl
    have hplain : b.kind ≠ .threadStart ∧ b.kind ≠ .block ∧ b.kind ≠ .threadJoin := by
      revert hkind
      generalize b.kind = kind
      cases kind <;> decide
    rw [hspawned] at hkey
    rw [List.cons_append, List.singleton_append, Schedule.steps_pair hcompletes,
      Schedule.tasks_own hplain, hb, show x.key.task + 1 = x.task from hkey, hwrap, Move.steps,
      hjoins]
    exact ⟨_, rfl⟩
  | @start e hpairs hspawned hjoins _ hkind hspawner =>
    rw [Move.keys, if_neg (by simpa using hpairs)] at hfaces hkeys
    obtain ⟨b, rfl, hb⟩ := List.map_eq_singleton_iff.mp hkeys
    obtain ⟨hsamekind, hsamespawner⟩ := hsame List.mem_cons_self hb (List.cons.inj hfaces).1
    rw [← hsamekind] at hkind
    rw [List.singleton_append, Schedule.steps_cons (by rw [hkind]; rfl), Schedule.tasks_start hkind,
      hsamespawner, hspawner, Option.getD_some, hwrap', Int.sub_add_cancel, hwrap, Move.steps,
      hjoins]
    exact ⟨_, rfl⟩

/-- **A schedule of events lets the tasks take the steps of the moves.** -/
theorem tasks_entries (hsub : ∀ y ∈ ys, y ∈ xs) (hkeys : bs.map Event.key = ys.flatMap Move.keys)
    (hevent : ∀ e ∈ bs, a.graph.event? e.key = some e) (loc : Location) :
    Schedule.tasks (Schedule.entries loc (Schedule.steps bs)) = ys.flatMap Move.steps := by
  induction ys generalizing bs loc with
  | nil =>
    obtain rfl := List.map_eq_nil_iff.mp hkeys
    rfl
  | cons y ys ih =>
    rw [List.flatMap_cons] at hkeys
    obtain ⟨front, more, rfl, hfront, hmore⟩ := List.map_eq_append_iff.mp hkeys
    obtain ⟨loc', hmove⟩ := h.tasks_move (hsub y List.mem_cons_self) hfront
      (fun e he => hevent e (List.mem_append_left more he)) loc more
    rw [hmove, List.flatMap_cons, ih (fun z hz => hsub z (List.mem_cons_of_mem y hz)) hmore
      fun e he => hevent e (List.mem_append_right front he)]

end Ledger

/-- **The schedule of a graph** lets the tasks take the steps of the moves in the order that
explains the graph. -/
theorem Sorts.taskSchedule (hs : Sorts a ns xs ys) (h : Ledger m₀ a m es xs) :
    ∃ plan, a.taskSchedule = .ok plan ∧ plan.filterMap Directive.steps? =
      ys.flatMap Move.steps := by
  have horder := hs.order
  obtain ⟨first, ns, rfl, -, horder⟩ := List.map_eq_cons_iff.mp horder
  obtain ⟨main, ns, rfl, -, horder⟩ := List.map_eq_cons_iff.mp horder
  have hkeys : (ns.map (·.event)).map Event.key = ys.flatMap Move.keys := by
    rw [← horder, List.map_map]
    rfl
  have hsteps := h.tasks_entries (fun y hy => hs.perm.mem_iff.mp hy) hkeys (fun e he => ?_) .none
  · refine ⟨_, by rw [Engine.taskSchedule, hs.found], ?_⟩
    have hofEvents : Schedule.ofEvents ((first :: main :: ns).map (·.event)) =
        Schedule.entries .none (Schedule.steps (ns.map (·.event))) := by
      rw [Schedule.ofEvents]
      split
      · rename_i hlength
        obtain rfl : ns = [] := by simpa using hlength
        rfl
      · rfl
    rw [hofEvents]
    exact hsteps
  · obtain ⟨n, hn, rfl⟩ := List.mem_map.mp he
    exact hs.event n (List.mem_cons_of_mem _ (List.mem_cons_of_mem _ hn))

end Engine

end Interleaving
