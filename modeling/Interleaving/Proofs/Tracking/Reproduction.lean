import Interleaving.Proofs.Program.Validity
import Interleaving.Proofs.Relocation.Basic
import Interleaving.Proofs.Tracking.Planned

/-!
# Schedules reproduce what was recorded

A recorded graph says how to do again what it records. **Following the schedule of its graph leads a
new run to the state in which the recorded one stopped**
(`Interleaving.Engine.schedule_reproduces`), whatever order the graph was recorded in: the variables
have the same values, the same tasks hold the same locks, and every task stands at the same place
with the same registers, except that a task of the recorded run may have asked already for the task
that it joins or for a lock that is taken, or may have gone past assertions that hold.

The two runs give other numbers to their variables and locks. A renaming takes the numbers of the
one run to those of the other (`Interleaving.Sites.exists_renaming`), and every task shows the same
events up to this renaming (`Interleaving.Engine.Sorts.filter_events`).
-/

namespace Interleaving

open Interleaving.Machine Interleaving.Graph

variable {a : Engine} {m m' m₀ m₀' : Machine} {es : List Event} {xs ys zs : List Move} {x y : Move}
  {p q : Place} {ns : List Node} {loc n : Location} {number number' : Place → Location}
  {ρ : Renaming} {T T' : LocationTable}

/-! ### Other numbers -/

theorem Renaming.apply_pos (h : 0 < loc) : 0 < ρ loc := by
  rw [apply, if_pos h]
  exact ρ.positive h

/-- Locations that are paired one with one, and up to a bound on one side, are renamed to each
other. -/
theorem Renaming.exists_of_pairing {R : Location → Location → Prop} {bound : Location}
    (hbound : 0 ≤ bound) (hpos : ∀ {l l'}, R l l' → 0 < l' ∧ l' ≤ bound)
    (hright : ∀ {l l' l''}, R l l' → R l l'' → l' = l'')
    (hleft : ∀ {k l l'}, R k l' → R l l' → k = l) : ∃ ρ : Renaming, ∀ {l l'}, 0 < l → R l l' →
    ρ l = l' := by
  classical
  -- what is in no pair goes behind the bound
  let number (l : Location) : Location := if h : ∃ l', R l l' then h.choose else l + bound
  have hpaired : ∀ {l l'}, R l l' → number l = l' := fun {l l'} h => by
    have hex : ∃ l', R l l' := ⟨l', h⟩
    exact (dif_pos hex).trans (hright hex.choose_spec h)
  have hcases : ∀ l, R l (number l) ∨ number l = l + bound := fun l => by
    by_cases hex : ∃ l', R l l'
    · exact Or.inl (hpaired hex.choose_spec ▸ hex.choose_spec)
    · exact Or.inr (dif_neg hex)
  refine ⟨⟨number, fun {l} hl => ?_, fun {l l'} hl hl' heq => ?_⟩,
    fun hl h => (if_pos hl).trans (hpaired h)⟩
  · rcases hcases l with h | h
    · exact (hpos h).1
    · exact h ▸ Int.add_pos_of_pos_of_nonneg hl hbound
  · rcases hcases l with h | h <;> rcases hcases l' with h' | h'
    · exact hleft h (heq ▸ h')
    · have := (hpos h).2
      lia
    · have := (hpos h').2
      lia
    · lia

namespace Sites

/-- No two places have the same number. -/
theorem eq_of_location? (h : Sites T m) (hp : m.location? p = some n)
    (hq : m.location? q = some n) : p = q :=
  h.injective (show T.siteOf? m p = some (T.resolve n).1 by rw [LocationTable.siteOf?, hp]; rfl)
    (by rw [LocationTable.siteOf?, hq]; rfl)

/-- The number of a place has been given out. -/
theorem location?_le (h : Sites T m) (haliases : ∀ k, T.alias? k = none)
    (hp : m.location? p = some n) : n ≤ m.lastLocation := by
  have hsite : T.siteOf? m p = some n := by
    rw [LocationTable.siteOf?, hp, Option.map_some, LocationTable.resolve_of_alias? (haliases n)]
  exact (h.range hsite).2

/-- **The numbers of one machine can be renamed to those of another one.** -/
theorem exists_renaming (h : Sites T m) (h' : Sites T' m') (haliases : ∀ k, T'.alias? k = none) :
    ∃ ρ : Renaming, ∀ {p l l'}, m.location? p = some l → m'.location? p = some l' → ρ l = l' := by
  obtain ⟨ρ, hρ⟩ := Renaming.exists_of_pairing
    (R := fun l l' => ∃ p, m.location? p = some l ∧ m'.location? p = some l')
    h'.base (fun ⟨p, _, hp⟩ => ⟨h'.numbered hp, h'.location?_le haliases hp⟩)
    (fun ⟨p, hp, hp'⟩ ⟨q, hq, hq'⟩ => by
      obtain rfl := h.eq_of_location? hp hq
      exact Option.some.inj (hp'.symm.trans hq'))
    (fun ⟨p, hp, hp'⟩ ⟨q, hq, hq'⟩ => by
      obtain rfl := h'.eq_of_location? hp' hq'
      exact Option.some.inj (hp.symm.trans hq))
  exact ⟨ρ, fun hp hp' => hρ (h.numbered hp) ⟨_, hp, hp'⟩⟩

/-- Different places have different locations after every sequence of moves. -/
theorem play (h : Sites T m) (haliases : ∀ k, T.alias? k = none)
    (hroom : Word.fits (m.lastLocation + xs.length) = true) :
    ∃ T', Sites T' (m.play xs) ∧ ∀ k, T'.alias? k = none := by
  induction xs generalizing m T with
  | nil => exact ⟨T, h, haliases⟩
  | cons x xs ih =>
    have hbase := h.base
    rw [Word.fits, Bool.and_eq_true, decide_eq_true_eq, decide_eq_true_eq, Word.least,
      Word.greatest, List.length_cons] at hroom
    have hfits : ∀ {k : Int}, 0 ≤ k → k ≤ m.lastLocation + (xs.length + 1 : Nat) →
        Word.fits k = true := by
      intro k hk hle
      rw [Word.fits, Bool.and_eq_true, decide_eq_true_eq, decide_eq_true_eq, Word.least,
        Word.greatest]
      lia
    have hafter : (x.after m) = (x.effect.apply x.task m).touched x.effect.report.place? :=
      perform_snd ..
    obtain ⟨T₁, h₁, haliases₁, hbase₁, hlast⟩ : ∃ T₁, Sites T₁ (x.after m) ∧
        (∀ k, T₁.alias? k = none) ∧
        m.lastLocation ≤ (x.after m).lastLocation ∧ (x.after m).lastLocation ≤
          m.lastLocation + 1 := by
      rw [hafter]
      cases x.effect.report.place? with
      | none => exact ⟨T, h.congr rfl rfl, haliases, Int.le_refl _, by show m.lastLocation ≤ _; lia⟩
      | some p =>
        have ht := h.touch_congr (show (x.effect.apply x.task m).places = m.places from rfl) rfl
          (hfits (by lia) (by push_cast; lia)) p
        exact ⟨_, ht.sites, fun k => (T.alias?_resolve ..).trans (haliases k), ht.grows⟩
    exact ih h₁ haliases₁ (hfits (by lia) (by push_cast; lia))

end Sites

/-! ### The events of tasks -/

namespace Observation

/-- The events of threads and assumptions have no location of memory. -/
theorem recorded_relocate {o : Observation} (ρ : Renaming)
    (hkind : o.kind = .threadStart ∨ o.kind = .threadJoinComplete ∨ o.kind = .assume ∨
      o.kind = .threadFinish) :
    o.recorded.map (Event.relocate ρ) = o.recorded := by
  have hnot : o.kind ≠ .lockAcquired := by rcases hkind with h | h | h | h <;> simp [h]
  rw [recorded, if_neg hnot, events]
  split
  · rfl
  · rcases hkind with h | h | h | h <;> simp only [h]
    · split <;> rfl
    · split <;> rfl
    · split <;> rfl
    · rfl

theorem memoryEvents_relocate (ρ : Renaming) (t : Nat) (n : Location) (kind : Kind) :
    memoryEvents t (ρ n) kind = (memoryEvents t n kind).map (Event.relocate ρ) := by
  cases kind <;> rfl

end Observation

namespace Machine

/-- The events of a move belong to the task of its key. -/
theorem CanMove.task_of_events (h : m.CanMove x)
    (hnumber : ∀ p, x.effect.report.place? = some p → 0 < number p) :
    ∀ e ∈ x.events number, e.task = x.key.task := by
  have hkey := h.key
  have hshows := h.shows hnumber
  generalize x.events number = shown at hshows
  intro e he
  cases hshows with
  | own _ hspawned htask =>
    obtain rfl := List.mem_singleton.mp he
    rw [hspawned] at hkey
    exact (Int.add_left_inj 1).mp (htask.trans hkey.symm)
  | pair _ hspawned _ htask htask' =>
    rw [hspawned] at hkey
    rcases List.mem_cons.mp he with rfl | he
    · exact (Int.add_left_inj 1).mp (htask.trans hkey.symm)
    · obtain rfl := List.mem_singleton.mp he
      exact (Int.add_left_inj 1).mp (htask'.trans hkey.symm)
  | start _ _ _ htask =>
    obtain rfl := List.mem_singleton.mp he
    exact htask

/-- Where places have other numbers, a move shows the same at other locations. -/
theorem CanMove.events_relocate (h : m.CanMove x)
    (hnumber : ∀ p, x.effect.report.place? = some p → 0 < number p)
    (hρ : ∀ p, x.effect.report.place? = some p → ρ (number p) = number' p) :
    x.events number' = (x.events number).map (Event.relocate ρ) := by
  obtain ⟨t, htask⟩ : ∃ t : Nat, x.task = t + 1 := ⟨(x.task - 1).toNat, by have := h.one_le; omega⟩
  obtain ⟨task, frame, e, k⟩ := x
  obtain rfl : task = t + 1 := htask
  have hmove : e.IsMove (t + 1) := h.move
  have haccess : ∀ {kind p}, e.report = .accesses kind p → kind ≠ .lockAcquired →
      (∀ n, Observation.memoryEvents t n kind ≠ []) →
      e.events (t + 1) number' = (e.events (t + 1) number).map (Event.relocate ρ) := by
    intro kind p hreport hkind hevents
    have hplace : e.report.place? = some p := by rw [hreport]; rfl
    have hpos := hnumber p hplace
    have heq := hρ p hplace
    rw [Effect.events_of_accesses hreport hkind hpos (hevents _),
      Effect.events_of_accesses hreport hkind (heq ▸ Renaming.apply_pos hpos) (hevents _), ← heq]
    exact Observation.memoryEvents_relocate ρ t _ kind
  have hshown : ∀ {o : Observation}, e.report = .shows o →
      o.kind = .threadStart ∨ o.kind = .threadJoinComplete ∨ o.kind = .assume ∨
        o.kind = .threadFinish →
      e.events (t + 1) number' = (e.events (t + 1) number).map (Event.relocate ρ) :=
        fun {o} hreport hkind => by
    have hevents : ∀ number, e.events (t + 1) number = o.recorded := fun number => by
      rw [Effect.events, hreport]
      exact List.flatMap_singleton ..
    rw [hevents, hevents, Observation.recorded_relocate ρ hkind]
  cases hmove with
  | spawn => exact hshown rfl (Or.inl rfl)
  | join => exact hshown rfl (Or.inr (Or.inl rfl))
  | assume => exact hshown rfl (Or.inr (Or.inr (Or.inl rfl)))
  | finish => exact hshown rfl (Or.inr (Or.inr (Or.inr rfl)))
  | _ => exact haccess rfl (by decide) fun _ => List.cons_ne_nil _ _

end Machine

namespace Machine

/-- The events of a task are those of the moves with its keys. -/
theorem filter_events (hxs : ∀ x ∈ xs, ∀ e ∈ x.events number, e.task = x.key.task) (t : Int) :
    (xs.flatMap fun x => x.events number).filter (·.task = t) =
      (xs.filter (·.key.task = t)).flatMap fun x => x.events number := by
  induction xs with
  | nil => rfl
  | cons x xs ih =>
    have hx := hxs x List.mem_cons_self
    rw [List.flatMap_cons, List.filter_append, ih fun y hy => hxs y (List.mem_cons_of_mem x hy),
      List.filter_cons]
    by_cases htask : x.key.task = t
    · rw [if_pos (decide_eq_true htask), List.flatMap_cons,
        List.filter_eq_self.mpr fun e he => decide_eq_true ((hx e he).trans htask)]
    · rw [if_neg (by simpa using htask), List.filter_eq_nil_iff.mpr fun e he heq =>
        htask ((hx e he).symm.trans (of_decide_eq_true heq)), List.nil_append]

end Machine

namespace Engine

/-- **The moves of a task stand in the order of their events**, wherever the edges of the graph go
forward. -/
theorem Ledger.pairwise_past (h : Ledger m₀ a m es xs) (hperm : zs.Perm xs)
    (hlinear : a.graph.Linear (.init :: .place 0 0 :: zs.flatMap Move.keys)) (t : Int) :
    (zs.filter (·.key.task = t)).Pairwise fun x y => a.graph.Past x.key y.key := by
  have hnodup := hlinear.perm.nodup_iff.mpr h.recorded.nodup
  have hkeys : (zs.map Move.key).Nodup :=
    Interleaving.nodup_map_key (List.nodup_cons.mp (List.nodup_cons.mp hnodup).2).2 fun x _ =>
      x.key_mem_keys
  rw [List.pairwise_filter]
  refine pairwise_of_before_map hkeys fun x hx y hy hbefore htx hty => ?_
  have hlisted :=
    (before_listed hnodup hx hy (fun heq => hbefore.ne (heq ▸ rfl)) x.key_mem_keys
      y.key_mem_keys).mpr
    hbefore
  obtain ⟨u, i, hkx, hmx⟩ := h.threaded.mem x (hperm.mem_iff.mp hx)
  obtain ⟨v, j, hky, hmy⟩ := h.threaded.mem y (hperm.mem_iff.mp hy)
  obtain rfl : u = v := by
    have htask : x.key.task = y.key.task :=
      (of_decide_eq_true htx).trans (of_decide_eq_true hty).symm
    rw [hkx, hky] at htask
    exact Int.ofNat_inj.mp htask
  rw [hkx, hky] at hlisted ⊢
  rcases Nat.lt_trichotomy i j with hlt | rfl | hgt
  · exact h.recorded.dense.past_place hmy hlt
  · exact absurd hlisted (Before.irrefl _ _)
  · have hpast := h.recorded.dense.past_place hmx hgt
    exact absurd (hlinear.before_of_past h.recorded.toWired hmx hpast) hlisted.asymm

namespace Sorts

variable (hs : Sorts a ns xs ys) (h : Ledger m₀ a m es xs)
include hs h

/-- **The moves of every task are in the same order.** -/
theorem filter_moves (t : Int) : ys.filter (·.key.task = t) = xs.filter (·.key.task = t) := by
  have hxs := h.pairwise_past (.refl xs) (h.order ▸ h.recorded.linear) t
  have hys := h.pairwise_past hs.perm (hs.order ▸ hs.explains.linear h.recorded.toWired) t
  refine (hs.perm.filter _).eq_of_pairwise (fun x y _ _ hxy hyx => ?_) hys hxs
  exact absurd (hxy.trans hyx) (h.recorded.dense.acyclic _)

/-- **Every task shows the same events**, at other locations. -/
theorem filter_events (hnumber : ∀ x ∈ xs, ∀ p, x.effect.report.place? = some p →
    ρ (m.touch p).1 = number' p)
    (t : Int) : (ys.flatMap fun x => x.events number').filter (·.task = t) =
      (es.filter (·.task = t)).map (Event.relocate ρ) := by
  have hmoves : ∀ x ∈ xs, (∀ e ∈ x.events fun p => (m.touch p).1, e.task = x.key.task) ∧
      x.events number' = (x.events fun p => (m.touch p).1).map (Event.relocate ρ) := fun x hx => by
    obtain ⟨m', hcan⟩ := h.exists_canMove hx
    have hpos := fun p hp => h.tracks.touch_pos (h.touched x hx p hp)
    exact ⟨hcan.task_of_events hpos, hcan.events_relocate hpos (hnumber x hx)⟩
  have htasks : ∀ x ∈ ys, ∀ e ∈ x.events number', e.task = x.key.task := fun x hx e he => by
    obtain ⟨htask, hrelocated⟩ := hmoves x (hs.perm.mem_iff.mp hx)
    rw [hrelocated] at he
    obtain ⟨e, hmem, rfl⟩ := List.mem_map.mp he
    exact htask e hmem
  rw [Machine.filter_events htasks, hs.filter_moves h, h.events,
    Machine.filter_events fun x hx => (hmoves x hx).1, List.map_flatMap]
  exact List.flatMap_congr fun x hx => (hmoves x (List.mem_of_mem_filter hx)).2

end Sorts

/-- Every move has its events on the graph. -/
theorem Ledger.length_le (h : Ledger m₀ a m es xs) : xs.length ≤ a.graph.order.length := by
  rw [← List.length_map (f := Move.key)]
  refine (h.nodup_map_key.subperm fun k hk => ?_).length_le
  obtain ⟨x, hx, rfl⟩ := List.mem_map.mp hk
  exact h.threaded.key_mem hx

/-- **Schedules reproduce what was recorded.** An engine that has recorded a run without errors of
the program has a schedule for its graph. Following it, in the same or in another run of the
program, always names a task that can take a step. It leads to the state of the recorded run, with
all tasks at rest, and every task shows the events that it showed, at the locations of the other
run. The bounds keep the numbers of runs, events and locations in the range of words. -/
theorem schedule_reproduces {run run' : Int} {ids : List Int} {os : List Observation} {m₁ : Machine}
    (hn : 0 ≤ run ∧ run < 2 ^ 46) (hn' : 0 ≤ run' ∧ run' < 2 ^ 46)
    (hrun : (m.reset run).2.follow? ids = some (os, m₁)) (hok : ∀ o ∈ os, o.kind ≠ .assertFailure)
    (hroom : ids.length < 2 ^ 60) :
    ∃ a plan es os' m₂ es' ρ, Engine.initial.learnAll ((m.reset run).1 ++ os) = .ok a ∧
      a.taskSchedule = .ok plan ∧ (m.reset run).2.events? ids = some es ∧
      (m.reset run').2.follow? (plan.filterMap Directive.steps?) = some (os', m₂) ∧ Rests m₂ m₁ ∧
      (m.reset run').2.events? (plan.filterMap Directive.steps?) = some es' ∧
      ∀ t, es'.filter (·.task = t) = (es.filter (·.task = t)).map (Event.relocate ρ) := by
  obtain ⟨a, es, xs, hlearn, hes, h⟩ := exists_ledger hn hrun hok hroom
  obtain ⟨ns, ys, hs⟩ := h.exists_sorts
  obtain ⟨plan, hplan, hsteps⟩ := hs.taskSchedule h
  obtain ⟨hplays, hagrees⟩ := hs.plays h
  -- the other run starts in the same state
  have hstart : Agrees (m.reset run).2 (m.reset run').2 := ⟨rfl, rfl, fun _ => rfl, fun _ => rfl⟩
  obtain ⟨hplays', hagrees'⟩ := hstart.plays hplays
  obtain ⟨os', hfollow, hevents⟩ := hplays'.follow?
  have hlen := h.length_le
  have hbounded := h.recorded.bounded
  have hperm := hs.perm.length_eq
  have hlast := lastLocation_reset m hn'
  rw [locationStride] at hlast
  have hfits : Word.fits ((m.reset run').2.lastLocation + ys.length) = true := by
    rw [hlast, Word.fits, Bool.and_eq_true, decide_eq_true_eq, decide_eq_true_eq, Word.least,
      Word.greatest]
    omega
  obtain ⟨T', hsites', haliases'⟩ := (sites_reset m hn' .thread).play
    (fun k => by rw [LocationTable.alias?_resolve]; rfl) hfits
  obtain ⟨ρ, hρ⟩ := h.tracks.tracks.sites.exists_renaming hsites' haliases'
  refine ⟨a, plan, es, os', _, _, ρ, hlearn, hplan, hes, hsteps ▸ hfollow,
    h.rests.congr (hagrees.trans hagrees'), hsteps ▸ hevents,
    hs.filter_events h fun x hx p hp => ?_⟩
  obtain ⟨l, hl⟩ := Option.isSome_iff_exists.mp (h.touched x hx p hp)
  obtain ⟨l', hl'⟩ := Option.isSome_iff_exists.mp
    (isSome_location?_play (m := (m.reset run').2) (hs.perm.mem_iff.mpr hx) hp)
  rw [touch_fst_of_some hl, touch_fst_of_some hl']
  exact hρ hl hl'

/-- Two tasks take one lock, and the second one writes while it holds it. -/
def handover : Program :=
  .ofInstructions "handover" ["x"]
    [("main", [.spawn "t", .lock "m", .unlock "m"]),
      ("t", [.lock "m", .write "x" (.literal (.number (.ofInt 1))), .unlock "m"])]

/-- The second task of `Interleaving.Engine.handover` waits for the lock. The schedule lets it come
when the lock is free. -/
theorem schedule_reproduces_handover : ∃ os m₁ a plan es os' m₂ es' ρ,
    ((Machine.ofProgram handover).reset 0).2.follow? [1, 1, 2, 1, 2, 2] = some (os, m₁) ∧
      (∀ o ∈ os, o.kind ≠ .assertFailure) ∧
      Engine.initial.learnAll (((Machine.ofProgram handover).reset 0).1 ++ os) = .ok a ∧
      a.taskSchedule = .ok plan ∧
      ((Machine.ofProgram handover).reset 0).2.events? [1, 1, 2, 1, 2, 2] = some es ∧
      ((Machine.ofProgram handover).reset 1).2.follow? (plan.filterMap Directive.steps?) =
        some (os', m₂) ∧
      Rests m₂ m₁ ∧ ((Machine.ofProgram handover).reset 1).2.events?
        (plan.filterMap Directive.steps?) = some es' ∧
      ∀ t, es'.filter (·.task = t) = (es.filter (·.task = t)).map (Event.relocate ρ) := by
  have hquiet : (((Machine.ofProgram handover).reset 0).2.follow? [1, 1, 2, 1, 2, 2]).any
      (fun r => r.1.all fun o => o.kind ≠ .assertFailure) = true := by decide +kernel
  obtain ⟨⟨os, m₁⟩, hrun, hquiet⟩ := (Option.any_eq_true _ _).mp hquiet
  have hok : ∀ o ∈ os, o.kind ≠ .assertFailure :=
    fun o ho => of_decide_eq_true (List.all_eq_true.mp hquiet o ho)
  have hother : (0 : Int) ≤ 1 ∧ (1 : Int) < 2 ^ 46 := by decide
  obtain ⟨a, plan, es, os', m₂, es', ρ, h⟩ :=
    schedule_reproduces (by decide) hother hrun hok (by decide)
  exact ⟨os, m₁, a, plan, es, os', m₂, es', ρ, hrun, hok, h⟩

end Engine

end Interleaving
