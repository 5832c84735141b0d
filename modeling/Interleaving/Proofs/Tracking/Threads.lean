import Interleaving.Proofs.Machine.Moves
import Interleaving.Proofs.Tracking.Stages

/-!
# Threads in a graph

The edges of a recorded graph keep moves in order that are about the same task, or about tasks one
of which starts or joins the other one (`Interleaving.Machine.Move.Binds`). A move of a task comes
before the latest event of the task, unless it started a thread right after it
(`Interleaving.Graph.Upto`); then it comes before the next event of the task. A graph is
**threaded** by moves (`Interleaving.Graph.Threaded`) when this is so. It stays threaded when one
more event of a task enters (`Interleaving.Graph.Threaded.extend`), and when the start of a thread
does (`Interleaving.Graph.Threaded.start`).
-/

namespace Interleaving

open Machine

variable {g g' : Graph} {a b k : Key} {r : Relation} {e : Event} {t n s i u j : Nat}
  {xs : List Move} {x y : Move} {extra : Relation → Key → Prop} {l : List Key}

/-- **Moves that threads keep in order**: of one task, of a task and one that it has started or that
joins it, and two that spawn tasks. -/
inductive Machine.Move.Binds (x y : Move) : Prop
  | task (h : x.task = y.task)
  | starts (h : x.key.task + 1 = y.task)
  | joins (h : y.frame.joins? = some x.task)
  | spawns (hx : x.effect.spawned.isSome = true) (hy : y.effect.spawned.isSome = true)

namespace Graph

/-! ### Paths to a new event -/

theorem Recorded.lastStart_mem (h : g.Recorded l) : g.lastStart ∈ g.order := by
  rcases mem_threadStarts g.lastStart_mem with heq | hmem
  · exact heq ▸ h.init_mem
  · rcases h.starts hmem with heq | hkind
    · exact heq ▸ h.init_mem
    · exact h.mem_of_kindOf? hkind (by decide)

namespace Logs

variable (h : Logs g g' e t n extra)
include h

theorem mem (hk : k ∈ g.order) : k ∈ g'.order := h.order ▸ List.mem_append_left _ hk

theorem self_mem : .place t n ∈ g'.order :=
  h.order ▸ List.mem_append_right _ (List.mem_singleton_self _)

theorem kindOf?_eq (hk : k ∈ g.order) : g'.kindOf? k = g.kindOf? k := h.gains.kindOf?_eq hk

/-- An edge to the new event that orders it in time. -/
theorem earlier (hr : r ≠ .coherency) (hc : g.Follows t n r a ∨ extra r a) :
    g'.Earlier a (.place t n) :=
  ⟨r, by simpa [Relation.ordersTime] using hr, (h.edge hr h.self_mem).mpr (Or.inr ⟨rfl, hc⟩)⟩

/-- What happened before an event still does. -/
theorem past (hg : g.Wired) (hb : b ∈ g.order) (hp : g.Past a b) : g'.Past a b := by
  have hstep : ∀ {a b}, b ∈ g.order → g.Earlier a b → g'.Earlier a b := fun hb ⟨r, hr, hin⟩ =>
    ⟨r, hr, (h.edge (by simpa [Relation.ordersTime] using hr) (h.mem hb)).mpr (Or.inl hin)⟩
  induction hp with
  | single hab => exact .single (hstep hb hab)
  | tail _ hbc ih =>
    obtain ⟨r, hr, hin⟩ := hbc
    exact (ih (hg.source_mem hin)).tail (hstep hb ⟨r, hr, hin⟩)

/-- The event before the new one in its task, and what happened before it. -/
theorem past_prior (hg : g.Wired) (hn : g.Fills t n) (ha : a = .prior t n ∨ g.Past a (.prior t n)) :
    g'.Past a (.place t n) := by
  have hprior : g'.Earlier (.prior t n) (.place t n) :=
    h.earlier (by decide) (Or.inl (Or.inl ⟨rfl, rfl⟩))
  rcases ha with rfl | ha
  · exact .single hprior
  · exact (h.past hg (hg.prior_mem hn) ha).tail hprior

end Logs

/-! ### Moves and the latest events of tasks -/

/-- **How an event stands to the latest event of a task**: it is this event, it comes before it, or
it is the start of a thread that the task has spawned right after it and that the next event will
come after. -/
inductive Upto (g : Graph) (k : Key) (t n : Nat) : Prop
  | last (h : k = .prior t n)
  | past (h : g.Past k (.prior t n))
  | spawned (h : g.In .threadStart (.prior t n) k) (begun : n ≠ 0)
      (going : g.kindOf? (.prior t n) ≠ some .threadFinish)

/-- The next event of a task comes after what stands up to its latest event. -/
theorem Upto.reach (h : g.Upto k t n) (hl : Logs g g' e t n extra) (hg : g.Wired)
    (hn : g.Fills t n) : g'.Past k (.place t n) := by
  cases h with
  | last h => exact hl.past_prior hg hn (Or.inl h)
  | past h => exact hl.past_prior hg hn (Or.inr h)
  | spawned h begun =>
    exact .single (hl.earlier (by decide) (Or.inl (Or.inr ⟨rfl, begun, hg.mirrored _ _ _ h⟩)))

/-- The end of a task comes after what stands up to it. -/
theorem Upto.of_finished (h : g.Upto k t n) (hend : g.kindOf? (.prior t n) = some .threadFinish) :
    k = .prior t n ∨ g.Past k (.prior t n) := by
  cases h with
  | last h => exact Or.inl h
  | past h => exact Or.inr h
  | spawned _ _ going => exact absurd hend going

/-- Events of other tasks do not matter. -/
theorem Upto.other (h : g.Upto k s i) (hl : Logs g g' e t n extra) (hg : g.Wired) (hk : k ∈ g.order)
    (hi : g.Fills s i) : g'.Upto k s i := by
  have hprior := hg.prior_mem hi
  cases h with
  | last h => exact .last h
  | past h => exact .past (hl.past hg hprior h)
  | spawned h begun going =>
    exact .spawned ((hl.edge (by decide) (hl.mem hk)).mpr (Or.inl h)) begun
      (by rwa [hl.kindOf?_eq hprior])

/-! ### Graphs that are threaded by moves -/

/-- **A graph whose edges keep moves in order** that threads bind. -/
structure Threaded (g : Graph) (xs : List Move) : Prop where
  /-- The starts of threads come one after the other, -/
  starts : ∀ {k}, g.kindOf? k = some .threadStart → k = g.lastStart ∨ g.Past k g.lastStart
  /-- the start of the main task before everything else. -/
  main : g.kindOf? (.place 0 0) = some .threadStart ∧
    ∀ {k}, k ∈ g.order → k = .init ∨ k = .place 0 0 ∨ g.Past (.place 0 0) k
  spawns : ∀ x ∈ xs, x.effect.spawned.isSome = true → g.kindOf? x.key = some .threadStart
  mem : ∀ x ∈ xs, ∃ u j : Nat, x.key = .place u j ∧ .place u j ∈ g.order
  begun : ∀ x ∈ xs, ∀ {u : Nat}, x.task = u + 1 → .place u 0 ∈ g.order
  upto : ∀ x ∈ xs, ∀ {u j : Nat}, (x.task = u + 1 ∨ x.key.task = u) → g.Fills u j → g.Upto x.key u j
  ordered : xs.Pairwise fun x y => x.Binds y → g.Past x.key y.key

namespace Threaded

variable (h : g.Threaded xs)
include h

theorem key_mem (hx : x ∈ xs) : x.key ∈ g.order := by
  obtain ⟨u, j, hkey, hmem⟩ := h.mem x hx
  exact hkey ▸ hmem

section Grow

variable (hg : g.Recorded l) (hg' : g'.Wired) (hl : Logs g g' e t n extra) (hn : g.Fills t n)
include hg hg' hl hn

/-- One more event, behind all that it must come after. -/
theorem grow (hback : ∀ x ∈ xs, (x.task = t + 1 ∨ x.key.task = t) → g'.Past x.key (.place t n))
    (hmain : g'.Past (.place 0 0) (.place t n))
    (hstarts : e.kind = .threadStart → ∀ {k}, g.kindOf? k = some .threadStart →
      g'.Past k (.place t n)) :
    g'.Threaded xs where
  starts := by
    intro k hk
    rw [hl.start]
    have hmem := hg'.mem_of_kindOf? hk (by decide)
    rw [hl.order, List.mem_append, List.mem_singleton] at hmem
    rcases hmem with hmem | rfl
    · rw [hl.kindOf?_eq hmem] at hk
      split
      · exact Or.inr (hstarts ‹_› hk)
      · exact (h.starts hk).imp_right (hl.past hg.toWired hg.lastStart_mem)
    · rw [kindOf?_eq_face, hl.self, Option.map_some, Option.some_inj] at hk
      exact Or.inl (if_pos hk).symm
  main := by
    refine ⟨?_, fun {k} hk => ?_⟩
    · rw [hl.kindOf?_eq (hg.mem_of_kindOf? h.main.1 (by decide))]
      exact h.main.1
    · rw [hl.order, List.mem_append, List.mem_singleton] at hk
      rcases hk with hk | rfl
      · exact (h.main.2 hk).imp_right (Or.imp_right (hl.past hg.toWired hk))
      · exact Or.inr (Or.inr hmain)
  spawns := fun x hx hspawned => by
    rw [hl.kindOf?_eq (h.key_mem hx)]
    exact h.spawns x hx hspawned
  mem := fun x hx => by
    obtain ⟨u, j, hkey, hmem⟩ := h.mem x hx
    exact ⟨u, j, hkey, hl.mem hmem⟩
  begun := fun x hx _ htask => hl.mem (h.begun x hx htask)
  upto := by
    intro x hx u j habout hj
    by_cases hu : u = t
    · subst hu
      -- the task has one event more, behind which nothing of it stands
      obtain rfl := hj.unique (hl.gains.fills hn)
      exact .past (hback x hx habout)
    · have hj := (hl.gains.fills_other hu j).mp hj
      exact (h.upto x hx habout hj).other hl hg.toWired (h.key_mem hx) hj
  ordered := by
    refine List.Pairwise.imp_of_mem (fun {x y} _ hy hxy hbinds => ?_) h.ordered
    exact hl.past hg.toWired (h.key_mem hy) (hxy hbinds)

/-- **One more event of a task** comes after all moves of the task. -/
theorem extend (hn0 : n ≠ 0) (hkind : e.kind ≠ .threadStart) :
    g'.Threaded xs ∧ ∀ x ∈ xs, (x.task = t + 1 ∨ x.key.task = t) → g'.Past x.key (.place t n) := by
  have hback : ∀ x ∈ xs, (x.task = t + 1 ∨ x.key.task = t) → g'.Past x.key (.place t n) :=
    fun x hx habout =>
    (h.upto x hx habout hn).reach hl hg.toWired hn
  refine ⟨h.grow hg hg' hl hn hback ?_ fun heq => absurd heq hkind, hback⟩
  have hprior : Key.prior t n ≠ .init := by
    cases n with
    | zero => exact absurd rfl hn0
    | succ n => exact Key.place_ne_init t n
  exact hl.past_prior hg.toWired hn
    (((h.main.2 (hg.prior_mem hn)).resolve_left hprior).imp_left Eq.symm)

/-- **The start of a thread** comes after all starts so far. -/
theorem start (hn0 : n = 0) (hcreated : extra .threadCreation g.lastStart) :
    g'.Threaded xs ∧ ∀ {k}, g.kindOf? k = some .threadStart → g'.Past k (.place t n) := by
  have hlast : g'.Earlier g.lastStart (.place t n) := hl.earlier (by decide) (Or.inr hcreated)
  have hstarts : ∀ {k}, g.kindOf? k = some .threadStart → g'.Past k (.place t n) := by
    intro k hk
    rcases h.starts hk with rfl | hpast
    · exact .single hlast
    · exact (hl.past hg.toWired hg.lastStart_mem hpast).tail hlast
  refine ⟨h.grow hg hg' hl hn (fun x hx habout => ?_) (hstarts h.main.1) fun _ => hstarts, hstarts⟩
  -- there is no move of the task so far
  subst hn0
  rcases habout with htask | htask
  · exact absurd rfl (hn.ne_of_mem (h.begun x hx htask))
  · obtain ⟨u, j, hkey, hmem⟩ := h.mem x hx
    obtain rfl : u = t := by
      rw [hkey] at htask
      exact Int.ofNat_inj.mp htask
    exact absurd ((hn j).mp hmem) (Nat.not_lt_zero j)

end Grow

/-- One more move. -/
theorem concat (hspawns : y.effect.spawned.isSome = true → g.kindOf? y.key = some .threadStart)
    (hkey : y.key = .place t n) (hmem : .place t n ∈ g.order)
    (hbegun : ∀ {u : Nat}, y.task = u + 1 → .place u 0 ∈ g.order)
    (hupto : ∀ {u j : Nat}, (y.task = u + 1 ∨ y.key.task = u) → g.Fills u j → g.Upto y.key u j)
    (hordered : ∀ x ∈ xs, x.Binds y → g.Past x.key y.key) : g.Threaded (xs ++ [y]) := by
  have hall : ∀ {P : Move → Prop}, (∀ x ∈ xs, P x) → P y → ∀ x ∈ xs ++ [y], P x :=
    fun hxs hy x hx => by
    rcases List.mem_append.mp hx with hx | hx
    · exact hxs x hx
    · exact List.mem_singleton.mp hx ▸ hy
  refine ⟨h.starts, h.main, hall h.spawns hspawns, hall h.mem ⟨t, n, hkey, hmem⟩,
    hall h.begun hbegun, hall h.upto hupto, ?_⟩
  rw [List.pairwise_append]
  exact ⟨h.ordered, List.pairwise_singleton ..,
    fun x hx z hz => List.mem_singleton.mp hz ▸ hordered x hx⟩

/-- Labels do not matter. -/
theorem resembles (hr : Resembles g g') (hg : g.Recorded l) (hg' : g'.Wired) : g'.Threaded xs := by
  have hkind : ∀ {k}, k ∈ g.order → g'.kindOf? k = g.kindOf? k := hr.kindOf?_eq
  have hpast : ∀ {a b}, b ∈ g.order → (g'.Past a b ↔ g.Past a b) :=
    past_congr hr.edge fun _ => hg.source_mem
  have hfills : ∀ {u j}, g'.Fills u j → g.Fills u j := fun hj i => hr.order ▸ hj i
  exact
    { starts := fun {k} hk => by
        have hmem : k ∈ g.order := hr.order ▸ hg'.mem_of_kindOf? hk (by decide)
        rw [lastStart_congr (hr.chain _), hpast hg.lastStart_mem]
        exact h.starts (hkind hmem ▸ hk)
      main := by
        rw [hkind (hg.mem_of_kindOf? h.main.1 (by decide))]
        refine ⟨h.main.1, fun {k} hk => ?_⟩
        rw [hpast (hr.order ▸ hk)]
        exact h.main.2 (hr.order ▸ hk)
      spawns := fun x hx hspawned => by
        rw [hkind (h.key_mem hx)]
        exact h.spawns x hx hspawned
      mem := fun x hx => by
        rw [hr.order]
        exact h.mem x hx
      begun := fun x hx u htask => by
        rw [hr.order]
        exact h.begun x hx htask
      upto := fun x hx u j habout hj => by
        have hprior := hg.prior_mem (hfills hj)
        cases h.upto x hx habout (hfills hj) with
        | last heq => exact .last heq
        | past hp => exact .past ((hpast hprior).mpr hp)
        | spawned hin begun going =>
          exact .spawned ((hr.edge (h.key_mem hx)).mpr hin) begun (by rwa [hkind hprior])
      ordered :=
        List.Pairwise.imp_of_mem (fun _ hy hxy hbinds =>
          (hpast (h.key_mem hy)).mpr (hxy hbinds)) h.ordered }

end Threaded

end Graph

end Interleaving
