import Interleaving.Proofs.Graph.Steady

/-!
# The latest event

An event joins a steady graph at the end of the total order, and what is then done to it are edges
that lead to it and its entry in a chain. As nothing stands behind it in its task, clocks still rise
along every task afterwards.

A steady graph is **live** (`Interleaving.Graph.Live`) when all that its chains list are events.
Only in such a graph can the neighbours in a chain be linked.
-/

namespace Interleaving

namespace Graph

variable {g g' : Graph} {a b k w : Key} {r : Relation} {e : Event} {t n i j u : Nat}
  {loc : Location} {ks : List Key} {N M : Nat} {c : Clock}

/-- **A steady graph whose chains list events only.** -/
structure Live (g : Graph) (N : Nat) : Prop extends g.Steady N where
  resolved : g.Resolved

theorem Live.mono (h : g.Live N) (hle : N ≤ M) (hroom : M < 2 ^ 62) : g.Live M :=
  ⟨h.toSteady.mono hle hroom, h.resolved⟩

theorem count_clockOf_initial (k : Key) (u : Nat) : (Graph.initial.clockOf k).count u = 0 := by
  unfold clockOf
  rw [find?_initial]
  split <;> rfl

theorem not_place_mem_initial : .place t i ∉ Graph.initial.order := by
  rw [fills_initial t i]
  exact Nat.not_lt_zero i

/-- **The graph of nothing is live.** -/
theorem live_initial : Graph.initial.Live 0 where
  toShaped := shaped_initial
  sequence := fun _ hj => absurd hj not_place_mem_initial
  linked := fun hi => absurd hi not_place_mem_initial
  located := by
    intro k e he hkind
    obtain ⟨-, rfl⟩ := eq_initial_of_event? he
    exact absurd hkind (by decide)
  waits := fun _ _ htask => nomatch htask
  strung := fun _ => Or.inl rfl
  nonneg := fun k u => (count_clockOf_initial k u).ge
  bounded := fun k _ u => (count_clockOf_initial k u).le
  ahead := fun k u => (count_clockOf_initial k u).le.trans (Int.natCast_nonneg _)
  prior := fun hi => absurd hi not_place_mem_initial
  own := fun hi => absurd hi not_place_mem_initial
  ample := by
    intro t i e he hex
    obtain ⟨-, rfl⟩ := eq_initial_of_event? he
    exact absurd hex (by decide)
  room := by decide
  resolved := fun _ _ hk => nomatch hk

/-- The latest event of a graph, before it sees a write and before it takes effect. -/
structure Newcomer (g : Graph) (k : Key) (e : Event) : Prop where
  latest : ∃ o, g.order = o ++ [k]
  place : ∃ t n : Nat, k = .place t n ∧ e.task = t
  event : ∃ e', g.event? k = some e' ∧ e'.kind = e.kind ∧ e'.location = e.location
  untracked : ∀ loc, k ∉ g.chain loc
  unseeing : ∀ a, ¬g.In .readsFrom a k

theorem Resolved.resembles (h : g.Resolved) (hr : Resembles g g') : g'.Resolved := by
  intro loc k hk
  rw [hr.chain] at hk
  rw [hr.order]
  exact h loc k hk

namespace Newcomer

variable (h : g.Newcomer k e)
include h

theorem mem : k ∈ g.order := by
  obtain ⟨o, ho⟩ := h.latest
  rw [ho]
  exact List.mem_append_right _ (List.mem_singleton_self k)

theorem locationOf : g.locationOf k = e.location := by
  obtain ⟨e', he', -, hloc⟩ := h.event
  rw [← hloc, Graph.locationOf]
  rw [event?, Option.map_eq_some_iff] at he'
  obtain ⟨m, hm, rfl⟩ := he'
  rw [hm]
  rfl

theorem task_nonneg : 0 ≤ e.task := by
  obtain ⟨t, -, -, ht⟩ := h.place
  rw [ht]
  exact Int.natCast_nonneg t

/-- It is the latest event of every graph with the same events. -/
theorem resembles (hs : g'.Shaped) (hr : Resembles g g') : g'.Newcomer k e where
  latest := by
    rw [hr.order]
    exact h.latest
  place := h.place
  event := by
    obtain ⟨e₀, he₀, hkind, hloc⟩ := h.event
    obtain ⟨e', he'⟩ := hs.event? (hr.order ▸ h.mem)
    obtain ⟨hkind', hloc'⟩ := eq_of_face he' he₀ (hr.face k h.mem)
    exact ⟨e', he', hkind'.trans hkind, hloc'.trans hloc⟩
  untracked := fun loc => by
    rw [hr.chain]
    exact h.untracked loc
  unseeing := fun a hin => h.unseeing a ((hr.edge h.mem).mp hin)

end Newcomer

/-- Nothing stands behind the latest event in its task. -/
theorem Laid.next_not_mem (h : g.Laid) (hlatest : ∃ o, g.order = o ++ [.place t n]) :
    .place t (n + 1) ∉ g.order := by
  intro hin
  obtain ⟨o, ho⟩ := hlatest
  have hnodup := h.nodup
  rw [ho] at hnodup
  have hnot : .place t n ∉ o := fun hmem =>
    (List.nodup_append.mp hnodup).2.2 _ hmem _ (List.mem_singleton_self _) rfl
  have hbefore := h.sequence (Nat.lt_succ_self n) hin
  rw [ho] at hin hbefore
  rcases List.mem_append.mp hin with hin | hin
  · exact hbefore.asymm (before_concat hin hnot)
  · exact absurd (Key.place_inj.mp (List.mem_singleton.mp hin)).2 (by omega)

/-! ### Edges to the latest event -/

/-- The latest event learns what another node knows. -/
theorem Rising.link (h : g.Rising N)
    (hhas : g.Has (.place t n)) (hlast : .place t (n + 1) ∉ g.order) (hle : N ≤ M)
    (ha : ∀ u : Nat, (g.clockOf a).count u ≤ M) : (g.link a (.place t n) r).Rising M := by
  have hM := h.mono hle
  have hother : ∀ k, k ≠ .place t n → (g.link a (.place t n) r).clockOf k = g.clockOf k :=
    fun k hk => by
    rw [clockOf_link hhas, if_neg fun heq => hk heq.1]
  -- its clock grows, but not beyond the bound
  have hself : ((g.link a (.place t n) r).clockOf (.place t n)).Nonneg ∧ ∀ u : Nat,
      (g.clockOf (.place t n)).count u ≤ ((g.link a (.place t n) r).clockOf (.place t n)).count u ∧
        ∀ m : Int, (g.clockOf (.place t n)).count u ≤ m → M ≤ m →
          ((g.link a (.place t n) r).clockOf (.place t n)).count u ≤ m := by
    have hnonneg := h.nonneg (.place t n)
    rw [clockOf_link hhas]
    split
    · refine ⟨hnonneg.merge _, fun u => ?_⟩
      rw [Clock.count_merge hnonneg]
      exact ⟨le_max_left _ _, fun m hm hMm => max_le hm ((ha u).trans hMm)⟩
    · exact ⟨hnonneg, fun u => ⟨le_refl _, fun m hm _ => hm⟩⟩
  -- it is prior to no event, so no other clock has to follow
  have hprior : ∀ {u i : Nat}, .place u i ∈ g.order → Key.prior u i ≠ .place t n := by
    intro u i hk heq
    cases i with
    | zero => exact Key.init_ne_place t n heq
    | succ i =>
      obtain ⟨rfl, rfl⟩ := Key.place_inj.mp heq
      exact hlast hk
  exact
    { nonneg := fun k => by
        by_cases hk : k = .place t n
        · rw [hk]
          exact hself.1
        · rw [hother k hk]
          exact h.nonneg k
      bounded := fun k hk u => by
        rw [link_order] at hk
        by_cases heq : k = .place t n
        · subst heq
          exact (hself.2 u).2 M (hM.bounded _ hk u) le_rfl
        · rw [hother k heq]
          exact hM.bounded k hk u
      ahead := fun k u => by
        by_cases heq : k = .place t n
        · subst heq
          exact (hself.2 u).2 (M + 1) (hM.ahead _ u) (by omega)
        · rw [hother k heq]
          exact hM.ahead k u
      prior := fun {v i} hk u => by
        rw [link_order] at hk
        rw [hother _ (hprior hk)]
        by_cases heq : Key.place v i = .place t n
        · have hstep := h.prior hk u
          rw [heq] at hstep ⊢
          exact hstep.trans (hself.2 u).1
        · rw [hother _ heq]
          exact h.prior hk u
      own := fun {v i} hk => by
        rw [link_order] at hk
        rw [hother _ (hprior hk)]
        by_cases heq : Key.place v i = .place t n
        · have hstep := h.own hk
          obtain ⟨rfl, -⟩ := Key.place_inj.mp heq
          rw [heq] at hstep ⊢
          exact hstep.trans_le (hself.2 v).1
        · rw [hother _ heq]
          exact h.own hk }

namespace Steady

variable (h : g.Steady N)
include h

/-- **An edge to the latest event**, from an event or from a label. -/
theorem link (hle : N ≤ M) (hroom : M < 2 ^ 62) (ha : g.Has a)
    (hcount : ∀ u : Nat, (g.clockOf a).count u ≤ M) (hlatest : ∃ o, g.order = o ++ [.place t n])
    (hr : r ≠ .programOrder) : (g.link a (.place t n) r).Steady M := by
  have hmem : .place t n ∈ g.order := by
    obtain ⟨o, ho⟩ := hlatest
    rw [ho]
    exact List.mem_append_right _ (List.mem_singleton_self _)
  refine ⟨h.toLaid.link ha hmem (Key.place_ne_init t n) hr, ?_, fun he hex => ?_, hroom⟩
  · exact h.toRising.link (h.has hmem) (h.toLaid.next_not_mem hlatest) hle hcount
  · exact (h.ample (event?_link ▸ he) hex).trans hle

/-- The events and their clocks as they were. -/
theorem of_clocks (hl : g'.Laid) (horder : g'.order = g.order)
    (hevent : ∀ k, g'.event? k = g.event? k) (hclock : ∀ k, g'.clockOf k = g.clockOf k) :
    g'.Steady N where
  toLaid := hl
  toRising := h.toRising.congr horder h.prior_mem (fun k _ => hclock k) fun k => by
    rw [hclock]
    exact ⟨h.nonneg k, h.ahead k⟩
  ample := fun he hex => h.ample (hevent _ ▸ he) hex
  room := h.room

end Steady

/-! ### A new event -/

/-- The clock of an event that joins its task. -/
theorem Rising.grows (h : g.Rising N) (hs : g.Shaped) (hroom : N < 2 ^ 62) (hn : g.Fills t n)
    (hg : Grows g e t n g') (hle : N ≤ M) (hown : (g.clockOf (.prior t n)).count t + 1 ≤ M)
    (hlabel : ∀ k, ∀ u : Nat, (g.clockOf k).count u ≤ M) :
    g'.Rising M := by
  have hpriorMem := hs.prior_mem hn
  have hbounded := h.bounded _ hpriorMem
  obtain ⟨hnonneg, -, hstep⟩ := count_successor_le (t := t) (h.nonneg (.prior t n)) hbounded hroom
  have hself := hg.nonneg hnonneg
  have hcount := hg.count hnonneg
  have hsucc : ∀ u : Nat, ((g.clockOf (.prior t n)).successor t).count u ≤ M := by
    intro u
    rw [count_successor_eq (h.nonneg (.prior t n)) hbounded hroom]
    split
    · exact hown
    · exact hlabel _ u
  -- the new clock lies between the successor of the prior one and the bound
  have hmax : ∀ u : Nat, (g'.clockOf (.place t n)).count u ≤ M := by
    intro u
    refine le_of_forall_lt (by omega) fun i hi => ?_
    rcases (hcount u i).mp hi with (hi | hi) | ⟨k, -, hout, hi⟩
    · exact hi.trans_le (hsucc u)
    · exact hi.trans_le (hlabel _ u)
    · exact hi.trans_le (hlabel k u)
  have habove : ∀ u : Nat, ((g.clockOf (.prior t n)).successor t).count u ≤
      (g'.clockOf (.place t n)).count u := fun u =>
    le_of_forall_lt (hself u) fun i hi => (hcount u i).mpr (Or.inl (Or.inl hi))
  have hne : ∀ {k}, k ∈ g.order → k ≠ .place t n := hn.ne_of_mem
  have hold : ∀ {k}, k ∈ g'.order → k ≠ .place t n → k ∈ g.order := by
    intro k hk hne
    rw [hg.order, List.mem_append, List.mem_singleton] at hk
    exact hk.resolve_right hne
  have hpriorOld : ∀ {u i : Nat}, .place u i ∈ g.order → Key.prior u i ∈ g.order := by
    intro u i hk
    cases i with
    | zero => exact hs.init_mem
    | succ i => exact hs.mem_of_lt hk (Nat.lt_succ_self i)
  exact
    { nonneg := fun k => by
        by_cases heq : k = .place t n
        · exact heq ▸ hself
        · rw [hg.clock k heq]
          exact h.nonneg k
      bounded := fun k hk u => by
        by_cases heq : k = .place t n
        · exact heq ▸ hmax u
        · rw [hg.clock k heq]
          exact (h.bounded k (hold hk heq) u).trans (by omega)
      ahead := fun k u => by
        by_cases heq : k = .place t n
        · exact heq ▸ (hmax u).trans (by omega)
        · rw [hg.clock k heq]
          exact (h.ahead k u).trans (by omega)
      prior := fun {v i} hk u => by
        by_cases heq : Key.place v i = .place t n
        · obtain ⟨rfl, rfl⟩ := Key.place_inj.mp heq
          rw [hg.clock _ (hne hpriorMem)]
          exact ((hstep u).1).trans (habove u)
        · have hmem := hold hk heq
          rw [hg.clock _ heq, hg.clock _ (hne (hpriorOld hmem))]
          exact h.prior hmem u
      own := fun {v i} hk => by
        by_cases heq : Key.place v i = .place t n
        · obtain ⟨rfl, rfl⟩ := Key.place_inj.mp heq
          rw [hg.clock _ (hne hpriorMem)]
          exact ((hstep v).2 rfl).trans_le (habove v)
        · have hmem := hold hk heq
          rw [hg.clock _ heq, hg.clock _ (hne (hpriorOld hmem))]
          exact h.own hmem }

/-- An event joins its task and the total order. -/
theorem Laid.grows (h : g.Laid) (hn : g.Fills t n) (hg : Grows g e t n g')
    (hloc : e.kind.isRead = true ∨ e.kind.isWrite = true → e.location ≠ .none) : g'.Laid where
  toShaped := hg.shaped
  sequence := by
    intro u i j hij hj
    rw [hg.order, List.mem_append, List.mem_singleton] at hj
    rw [hg.order, before_append]
    rcases hj with hj | heq
    · exact Or.inl (h.sequence hij hj)
    · obtain ⟨rfl, rfl⟩ := Key.place_inj.mp heq
      exact Or.inr ⟨fun hin => hn.ne_of_mem hin rfl,
        Or.inl ⟨(hn i).mpr hij, List.mem_singleton_self _⟩⟩
  linked := by
    intro u i hk
    rw [hg.order, List.mem_append, List.mem_singleton] at hk
    rcases hk with hk | heq
    · exact (hg.cause ..).mpr (Or.inl (h.linked hk))
    · obtain ⟨rfl, rfl⟩ := Key.place_inj.mp heq
      exact (hg.cause ..).mpr (Or.inr ⟨rfl, Or.inl ⟨rfl, rfl⟩⟩)
  located := by
    intro k e' he' hkind
    rw [hg.event] at he'
    split at he'
    · obtain rfl := Option.some.inj he'
      exact hloc hkind
    · exact h.located he' hkind
  waits := by
    intro loc
    rw [waitingFor, hg.waiting, ← waitingFor]
    exact h.waits loc
  strung := by
    intro loc
    rw [chain, chain?, hg.chains, ← chain?, ← chain]
    exact h.strung loc

theorem mem_chain_of_opened {loc' : Location} (hk : k ∈ (g.opened loc).chain loc') :
    k ∈ g.chain loc' ∨ k = .init := by
  unfold Graph.opened at hk
  split at hk
  · rw [chain_setChain] at hk
    split at hk
    · exact Or.inr (List.mem_singleton.mp hk)
    · exact Or.inl hk
  · exact Or.inl hk

/-- There is room for an event at the end of its task: for itself, and for the write that completes
it if it is an exclusive read. -/
structure Receives (g : Graph) (e : Event) (M : Nat) : Prop where
  task : 0 ≤ e.task
  kind : e.kind ≠ .block
  located : e.kind.isRead = true ∨ e.kind.isWrite = true → e.location ≠ .none
  own : ∀ {t n : Nat}, e.task = t → g.Fills t n → (g.clockOf (.prior t n)).count t + 1 ≤ M
  clocks : ∀ k, ∀ u : Nat, (g.clockOf k).count u ≤ M
  pair : ∀ {t n : Nat}, e.task = t → g.Fills t n → e.kind.isExclusiveRead = true → n + 2 ≤ M

/-- A higher bound makes room for any event. -/
theorem Steady.receives (h : g.Steady N) (htask : 0 ≤ e.task) (hkind : e.kind ≠ .block)
    (hloc : e.kind.isRead = true ∨ e.kind.isWrite = true → e.location ≠ .none) :
    g.Receives e (N + 2) where
  task := htask
  kind := hkind
  located := hloc
  own := fun {t n} _ hn => by
    have hle := h.bounded _ (h.toShaped.prior_mem hn) t
    omega
  clocks := fun k u => (h.ahead k u).trans (by omega)
  pair := fun _ hn _ => Nat.add_le_add_right (h.fills_le h.toShaped hn) 2

/-- **An event is added** to a live graph with room for it. -/
theorem Live.addEvent (h : g.Live N) (hle : N ≤ M) (hroom : M < 2 ^ 62) (he : g.Receives e M)
    (hg' : (Graph.addEvent e).run g = .ok k g') :
    g'.Live M ∧ g'.Newcomer k e ∧ ∀ loc, g'.lastWrite loc = g.lastWrite loc := by
  obtain ⟨t, n, hn, htask, hg, rfl⟩ := h.toShaped.addEvent_ok he.kind hg'
  have hp : (g.prepared e).Steady N := (h.toSteady.ensureTask e.task).opened e.location
  have horder : (g.prepared e).order = g.order := Entry.order_prepared
  have hnodes : (g.prepared e).nodes = g.nodes := Entry.nodes_prepared
  have hn' : (g.prepared e).Fills t n := by
    unfold Fills
    rw [horder]
    exact hn
  have hchain : ∀ loc, g'.chain loc = (g.prepared e).chain loc := fun loc => by
    rw [chain, chain?, hg.chains, ← chain?, ← chain]
  have hmem : ∀ {loc k}, k ∈ g'.chain loc → k ∈ g.order := by
    intro loc k hk
    rw [hchain] at hk
    rcases mem_chain_of_opened hk with hk | rfl
    · exact h.resolved _ _ hk
    · exact h.init_mem
  have hrising : g'.Rising M := by
    refine hp.toRising.grows hp.toShaped hp.room hn' hg hle ?_ fun k u => ?_
    · rw [clockOf_of_nodes hnodes]
      exact he.own htask hn
    · rw [clockOf_of_nodes hnodes]
      exact he.clocks k u
  have hample : g'.Ample M := by
    intro u i e' he' hex
    rw [hg.event] at he'
    split at he'
    · rename_i heq
      obtain ⟨rfl, rfl⟩ := Key.place_inj.mp heq
      obtain rfl := Option.some.inj he'
      exact he.pair htask hn hex
    · exact (hp.ample he' hex).trans hle
  refine ⟨⟨⟨hp.toLaid.grows hn' hg he.located, hrising, hample, hroom⟩, ?_⟩,
    ⟨⟨g.order, ?_⟩, ⟨t, n, rfl, htask⟩, ⟨(g.prepared e).entered e, ?_, rfl, rfl⟩, fun loc hin => ?_,
      fun a hin => ?_⟩,
    fun loc => ?_⟩
  · intro loc k hk
    rw [hg.order, horder]
    exact List.mem_append_left _ (hmem hk)
  · rw [hg.order, horder]
  · rw [hg.event, if_pos rfl]
  · exact hn.ne_of_mem (hmem hin) rfl
  · rcases (hg.cause ..).mp hin with hin | ⟨-, ⟨heq, -⟩ | ⟨heq, -⟩⟩
    · have hmem := hp.toShaped.mem_of_in hin (by decide)
      rw [horder] at hmem
      exact hn.ne_of_mem hmem rfl
    · cases heq
    · cases heq
  · rw [lastWrite, hchain, ← lastWrite]
    exact lastWrite_opened ..

/-! ### What is done to a new event -/

namespace Live

variable (h : g.Live N)
include h

theorem lastWrite_mem_order (loc : Location) : g.lastWrite loc ∈ g.order := by
  by_cases hnil : g.chain loc = []
  · rw [lastWrite, hnil]
    exact h.init_mem
  · exact h.resolved loc _ (lastWrite_mem hnil)

theorem resembles (hs : g'.Steady M ∧ Resembles g g') : g'.Live M :=
  ⟨hs.1, h.resolved.resembles hs.2⟩

theorem link (hle : N ≤ M) (hroom : M < 2 ^ 62) (ha : g.Has a)
    (hcount : ∀ u : Nat, (g.clockOf a).count u ≤ M) (hlatest : ∃ o, g.order = o ++ [.place t n])
    (hr : r ≠ .programOrder) : (g.link a (.place t n) r).Live M where
  toSteady := h.toSteady.link hle hroom ha hcount hlatest hr
  resolved := by
    intro loc k hk
    rw [chain, chain?, link_chains, ← chain?, ← chain] at hk
    rw [link_order]
    exact h.resolved _ _ hk

/-- **A new read sees a write**, and no other one. -/
theorem setReadsFrom (hk : g.Newcomer k e) (hw : w ∈ g.order) :
    (g.setReadsFrom k w).Live N ∧ ∃ m, (g.setReadsFrom k w).find? k = some m ∧ m.kind = e.kind ∧
      m.location = e.location ∧ m.predecessors .readsFrom = [w] := by
  obtain ⟨t, n, rfl, -⟩ := hk.place
  have hlive :=
    h.link (r := .readsFrom) le_rfl h.room (h.has hw) (h.bounded w hw) hk.latest (by decide)
  refine ⟨hlive, ?_⟩
  obtain ⟨e', he', hkind, hloc⟩ := hk.event
  have he'' : (g.setReadsFrom (.place t n) w).event? (.place t n) = some e' := event?_link.trans he'
  obtain ⟨m, hm, rfl⟩ := Option.map_eq_some_iff.mp he''
  refine ⟨m, hm, hkind, hloc, hlive.tidy.predecessors_eq hm fun a => ?_⟩
  refine (in_link (h.has hk.mem)).trans ⟨fun hin => ?_, fun heq => Or.inr ⟨rfl, heq, rfl⟩⟩
  exact hin.elim (fun hin => absurd hin (hk.unseeing a)) fun heq => heq.2.1

/-! ### The life of threads -/

theorem lastStart_mem_order : g.lastStart ∈ g.order := by
  rcases mem_threadStarts (lastStart_mem g) with heq | hmem
  · rw [heq]
    exact h.init_mem
  · exact h.resolved _ _ hmem

/-- **The start of a thread** comes after the previous start. -/
theorem trackThreadCreates (hk : g.Newcomer k e) :
    (g.trackThreadCreates k).Live N ∧ (g.trackThreadCreates k).order = g.order := by
  obtain ⟨t, n, rfl, -⟩ := hk.place
  unfold Graph.trackThreadCreates
  split
  · have hlink := h.link (r := .threadCreation) le_rfl h.room (h.has h.lastStart_mem_order)
      (h.bounded _ h.lastStart_mem_order) hk.latest (by decide)
    have hstarts : Strung (g.threadStarts ++ [.place t n]) := by
      refine Strung.concat ?_ fun hin => ?_
      · unfold Graph.threadStarts
        split
        · exact .singleton
        · rename_i hne
          exact (h.strung .thread).resolve_left (by simpa using hne)
      · exact (mem_threadStarts hin).elim (Key.place_ne_init t n) (hk.untracked .thread)
    refine ⟨⟨hlink.toSteady.setChain hstarts, fun loc k hin => ?_⟩, link_order ..⟩
    rw [chain_setChain] at hin
    split at hin
    · show k ∈ (g.link _ _ _).order
      rw [link_order]
      rcases List.mem_append.mp hin with hin | hin
      · rcases mem_threadStarts hin with rfl | hin
        · exact h.init_mem
        · exact h.resolved _ _ hin
      · exact List.mem_singleton.mp hin ▸ hk.mem
    · exact hlink.resolved _ _ hin
  · exact ⟨h, rfl⟩

/-- The last node of a task that has nodes is there. -/
theorem has_lastOf {task : Int} (htask : g.hasNodes task = true) : g.Has (g.lastOf task) := by
  have hne : g.taskKeys task ≠ [] := by simpa [hasNodes] using htask
  obtain ⟨u, rfl⟩ : ∃ u : Nat, task = u := by
    refine Int.eq_ofNat_of_zero_le (Int.not_lt.mp fun hneg => ?_)
    exact hne (taskKeys_of_neg hneg)
  obtain ⟨m, hm, hkeys | ⟨hkeys, hlabel⟩⟩ := h.tasks u
  · rw [lastOf_eq hkeys]
    exact h.has (h.toShaped.prior_mem hm)
  · rw [lastOf_eq hkeys]
    exact has_of_isLabel hlabel

/-- **The start of a thread** comes after the last node of the task that spawned it, be it a
label. -/
theorem trackThreadStarts (hroom : N + 1 < 2 ^ 62) (hlatest : ∃ o, g.order = o ++ [.place t n])
    (hg' : g.trackThreadStarts (.place t n) = .ok g') : g'.Live (N + 1) := by
  have hsame : g.Live (N + 1) := h.mono (Nat.le_succ N) hroom
  unfold Graph.trackThreadStarts at hg'
  split at hg'
  · cases hg'
    exact hsame
  split at hg'
  · cases hg'
    exact hsame
  split at hg'
  · rename_i parent _
    split at hg'
    · rename_i hnodes
      cases hg'
      exact h.link (Nat.le_succ N) hroom (h.has_lastOf hnodes) (h.ahead _) hlatest (by decide)
    · cases hg'
  · cases hg'

/-- **A join** comes after the last node of the task that was joined, be it a label. -/
theorem trackThreadJoins (hroom : N + 1 < 2 ^ 62) (hlatest : ∃ o, g.order = o ++ [.place t n])
    (hg' : g.trackThreadJoins (.place t n) = .ok g') : g'.Live (N + 1) := by
  have hsame : g.Live (N + 1) := h.mono (Nat.le_succ N) hroom
  unfold Graph.trackThreadJoins at hg'
  split at hg'
  · cases hg'
    exact hsame
  split at hg'
  · cases hg'
    exact hsame
  split at hg'
  · rename_i target _
    split at hg'
    · rename_i hnodes
      cases hg'
      exact h.link (Nat.le_succ N) hroom (h.has_lastOf hnodes) (h.ahead _) hlatest (by decide)
    · cases hg'
  · cases hg'

end Live

end Graph

end Interleaving
