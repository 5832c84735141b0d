import Interleaving.Proofs.Graph.Editing

/-!
# What is left when events go

Taking events out of a regular graph changes every view of it in its own pass, so that none of the
passes says what the result is. It is the graph of the events that stay
(`Interleaving.Graph.Trims`): the total order and the chains without the others, the labels that
stand behind an event that stays, the edges between nodes that stay, and coherency between the new
neighbours of chains. **This is what comes of every set of events that is closed under program
order, and of cutting the total order off behind an event**; any other key is refused.
-/

namespace Interleaving.Graph

variable {g g' : Graph} {a b k : Key} {r : Relation} {t n : Nat} {removed : List Key}

/-- A node stays unless it is taken out or is the label behind an event that is. -/
def Survives (g : Graph) (removed : List Key) (k : Key) : Prop :=
  g.Has k ∧ k ∉ removed ∧ (g.isLabel k = true → ∀ a, g.In .programOrder a k → a ∉ removed)

/-- **The graph of what stays.** -/
structure Trims (g g' : Graph) (removed : List Key) : Prop where
  order : g'.order = g.order.filter fun k => !removed.contains k
  /-- A key that stays names the event that it named. -/
  resolves : ∀ k ∈ g'.order, ∃ m m', g.node? k = some m ∧ g'.node? k = some m' ∧ m'.event = m.event
  has_iff : ∀ k, g'.Has k ↔ g.Survives removed k
  chain : ∀ loc, g'.chain loc = (g.chain loc).filter fun k => !removed.contains k
  /-- Coherency links the neighbours of chains. -/
  coherency : ∀ a b, g'.In .coherency a b ↔ ∃ loc, loc ≠ .thread ∧ [a, b] <:+: g'.chain loc
  /-- Every other edge between two nodes that stay is there, and no other one. -/
  edge : ∀ r a b, r ≠ .coherency →
    (g'.In r a b ↔ g.In r a b ∧ g.Survives removed a ∧ g.Survives removed b)
  mirrored : ∀ r a b, g'.In r a b ↔ g'.Out r a b
  /-- The labels are those behind an event that stays. -/
  label : ∀ k, g'.isLabel k = true ↔ g.isLabel k = true ∧ ∃ a, g.In .programOrder a k ∧ a ∉ removed
  regular : g'.Regular

namespace Regular

variable (h : g.Regular)
include h

/-- A label stands behind one event. -/
theorem in_label (hlabel : g.isLabel k = true) : ∃ t n : Nat, k = .place t n ∧
    ∀ a, g.In .programOrder a k ↔ a = .prior t n := by
  obtain ⟨t, n, rfl, -⟩ := h.label hlabel
  exact ⟨t, n, rfl, fun a => ⟨h.programOrder, fun heq => heq ▸ h.linked (has_of_isLabel hlabel)⟩⟩

/-- The nodes that go are the events taken out and the labels behind them. -/
theorem survives_iff (hr : g.Removable removed) (hk : g.Has k) :
    g.Survives removed k ↔ k ∉ removed ++ g.stale removed := by
  rcases h.mem_or_label hk with hmem | hlabel
  · rw [h.not_gone_iff hmem, Survives, h.isLabel_of_mem hmem]
    simp [hk]
  · obtain ⟨t, n, rfl, hin⟩ := h.in_label hlabel
    have hstays : g.Survives removed (.place t n) ↔ Key.prior t n ∉ removed := by
      unfold Survives
      simp only [hin]
      constructor
      · exact fun hs => hs.2.2 hlabel _ rfl
      · exact fun hprior => ⟨hk, h.label_not_removed hr hlabel, fun _ a ha => ha ▸ hprior⟩
    rw [hstays]
    constructor
    · -- a label that goes stands behind an event that goes
      intro hprior hgone
      have hstale := (List.mem_append.mp hgone).resolve_left (h.label_not_removed hr hlabel)
      obtain ⟨u, i, m, -, hs, hne, -, -, heq⟩ := (h.mem_stale hr).mp hstale
      obtain ⟨rfl, rfl⟩ := Key.place_inj.mp heq
      obtain ⟨i, rfl⟩ : ∃ i, n = i + 1 := ⟨n - 1, by have := hs.le; omega⟩
      exact hprior ((hs.iff (Nat.lt_succ_self i)).mpr (by have := hs.le; omega))
    · intro hstay hprior
      obtain ⟨u, i, heq, -, -, hs⟩ := h.label_stays hr hlabel hstay
      obtain ⟨rfl, rfl⟩ := Key.place_inj.mp heq
      cases n with
      | zero => exact hr.init hprior
      | succ i => exact absurd ((hs.iff (Nat.lt_succ_self i)).mp hprior) (by omega)

/-- **Taking out events that nothing stays behind** leaves the graph of the others. -/
theorem trims (hr : g.Removable removed) : Trims g (g.prune removed) removed := by
  have hp := h.prune hr
  have hco := h.recoheres_prune hr
  have hhas : ∀ k, (g.prune removed).Has k ↔ g.Survives removed k := by
    intro k
    rw [hco.has_iff, has_iff_event?, event?_stripped]
    constructor
    · intro hsome
      split at hsome
      · cases hsome
      · rename_i hstay
        exact (h.survives_iff hr (has_iff_event?.mpr hsome)).mpr hstay
    · intro hs
      rw [if_neg ((h.survives_iff hr hs.1).mp hs), ← has_iff_event?]
      exact hs.1
  refine ⟨hco.order, fun k hk => ?_, hhas, h.chain_prune hr, fun a b => hp.coherency,
    fun r a b hne => ?_,
    fun r a b => ⟨hp.mirrored r a b, hp.tidy.known⟩, fun k => ?_, hp⟩
  · obtain ⟨hmem, hstay⟩ := (h.mem_order_prune hr).mp hk
    obtain ⟨m, hm⟩ := h.find? hmem
    obtain ⟨m', hm'⟩ := hp.find? hk
    have hevent := h.event?_prune hr hmem hstay
    rw [event?, event?, hm, hm'] at hevent
    exact ⟨m, m', (h.node? hmem).trans hm, (hp.node? hk).trans hm', Option.some.inj hevent⟩
  · rw [hco.other hne, in_stripped]
    constructor
    · rintro ⟨hin, ha, hb⟩
      exact ⟨hin, (h.survives_iff hr (has_of_out (h.mirrored _ _ _ hin))).mpr ha,
        (h.survives_iff hr (has_of_in hin)).mpr hb⟩
    · rintro ⟨hin, ha, hb⟩
      exact ⟨hin, (h.survives_iff hr ha.1).mp ha, (h.survives_iff hr hb.1).mp hb⟩
  · have hlabel : (g.prune removed).isLabel k = true ↔
        g.isLabel k = true ∧ g.Survives removed k := by
      rw [isLabel_iff_event?, hco.event, ← isLabel_iff_event?, isLabel_stripped]
      exact and_congr_right fun hlabel => (h.survives_iff hr (has_of_isLabel hlabel)).symm
    rw [hlabel]
    refine and_congr_right fun hlab => ?_
    obtain ⟨t, n, rfl, hin⟩ := h.in_label hlab
    simp only [hin, Survives, exists_eq_left]
    exact ⟨fun hs => hs.2.2 hlab _ rfl,
      fun hprior => ⟨has_of_isLabel hlab, h.label_not_removed hr hlab, fun _ a ha => ha ▸ hprior⟩⟩

/-- Closed under program order, step by step. -/
theorem removable (hmem : ∀ k ∈ removed, k ≠ .init ∧ k ∈ g.order)
    (hclosed : ∀ a b, a ∈ removed → g.In .programOrder a b → b ∈ g.order → b ∈ removed) :
    g.Removable removed where
  init := fun hinit => (hmem _ hinit).1 rfl
  mem := fun hk => (hmem _ hk).2
  closed := by
    intro t i j hij hi hj
    obtain ⟨n, hn, -⟩ := h.tasks t
    have hlt := (hn j).mp hj
    -- from one place to the next
    induction j with
    | zero => omega
    | succ j ih =>
      have hbefore : .place t j ∈ g.order := (hn j).mpr (by omega)
      refine hclosed (.place t j) _ ?_ (h.linked (h.has hj)) hj
      rcases Nat.lt_succ_iff_lt_or_eq.mp hij with hij | rfl
      · exact ih hij hbefore (by omega)
      · exact hi

end Regular

/-- **Exactly the given events are taken out** if they are closed under program order, and so is
what follows an event in the total order. A set with the first event or with a key of no event is
refused, and no graph comes of it. -/
theorem restrictBySet_exact (hg : g.Regular) :
    (∀ removed : List Key, (∀ k ∈ removed, k ≠ .init ∧ k ∈ g.order) →
      (∀ a b, a ∈ removed → g.In .programOrder a b → b ∈ g.order → b ∈ removed) →
      ∃ g', g.restrictBySet removed = .ok g' ∧ Trims g g' removed) ∧
    (∀ before k after, g.order = before ++ k :: after →
      ∃ g', g.restrict k = .ok g' ∧ Trims g g' after) ∧
    ∀ removed : List Key, (∃ k ∈ removed, k = .init ∨ k ∉ g.order) →
      ∃ k ∈ removed, (k = .init ∨ k ∉ g.order) ∧ g.restrictBySet removed =
        .error (.noSuchEvent k) := by
  have hinit : ∀ k, (k.isInit = true ∨ k ∉ g.order) ↔ k = .init ∨ k ∉ g.order := by
    intro k
    constructor
    · rintro (hinit | hnone)
      · refine Classical.byContradiction fun hnot => ?_
        rw [not_or, not_not] at hnot
        rw [hg.isInit_of_ne hnot.2 hnot.1] at hinit
        cases hinit
      · exact Or.inr hnone
    · exact Or.imp_left fun heq => heq ▸ rfl
  refine ⟨fun removed hmem hclosed => ?_, fun before k after hsplit => ?_, fun removed hbad => ?_⟩
  · refine ⟨_, restrictBySet_eq hg.chained fun k hk => ?_, hg.trims (hg.removable hmem hclosed)⟩
    exact ⟨(hmem k hk).2, hg.isInit_of_ne (hmem k hk).2 (hmem k hk).1⟩
  · have hnot : k ∉ before := by
      have hnodup := hg.nodup
      rw [hsplit] at hnodup
      exact fun hk => (List.nodup_append.mp hnodup).2.2 _ hk _ List.mem_cons_self rfl
    have hdrop : g.order.drop (before.length + 1) = after := by
      rw [hsplit, ← List.drop_drop, List.drop_left, List.drop_one, List.tail_cons]
    refine ⟨g.prune after, ?_, hdrop ▸ hg.trims (hg.removable_drop before.length)⟩
    unfold restrict
    rw [indexOf?_of_split hsplit hnot]
    dsimp only
    rw [hdrop, takeOut_eq hg.chained]
  · simp only [← hinit] at hbad ⊢
    exact restrictBySet_refused hbad

/-- The read is taken out of a graph with a label; the label stays behind the write, and the edge to
the read goes. -/
theorem restrictBySet_observedGraph : (observedGraph.block 0).Regular ∧
    ∃ g', (observedGraph.block 0).restrictBySet [.place 1 0] = .ok g' ∧
      g'.order = [.init, .place 0 0] ∧ g'.isLabel (.place 0 1) = true ∧
      ¬g'.In .readsFrom (.place 0 0) (.place 1 0) := by
  have hg := (regular_of_edits edits_observedGraph).block (Int.le_refl 0) (by decide)
  obtain ⟨hexact, -, -⟩ := restrictBySet_exact hg
  obtain ⟨g', hrun, htrims⟩ := hexact [.place 1 0] (by decide) (by
    intro a b ha hin hb
    rw [List.mem_singleton.mp ha] at hin
    rcases hg.key hb with rfl | ⟨t, i, rfl⟩
    · exact absurd hin hg.no_cause
    · have hprior := hg.programOrder hin
      cases i with
      | zero => exact absurd hprior (Key.place_ne_init 1 0)
      | succ i =>
        obtain ⟨rfl, rfl⟩ := Key.place_inj.mp hprior
        exact absurd hb (by decide))
  refine ⟨hg, g', hrun, ?_, ?_, fun hin => ?_⟩
  · rw [htrims.order]
    decide
  · exact (htrims.label _).mpr ⟨by decide, .place 0 0, ⟨_, rfl, by decide⟩, by decide⟩
  · exact ((htrims.edge _ _ _ (by decide)).mp hin).2.2.2.1 List.mem_cons_self

end Interleaving.Graph
