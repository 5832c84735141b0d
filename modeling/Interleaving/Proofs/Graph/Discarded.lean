import Interleaving.Proofs.Graph.Rearranged
import Interleaving.Proofs.Graph.Trimming
import Interleaving.Revisit.Backward

/-!
# Events that go from a graph that is laid out

Events that nothing stays behind in their tasks can be taken out of a graph that is laid out, and
what is left is laid out again (`Interleaving.Graph.Laid.prune`). In such a graph a chain may list
events of other locations, so a chain that loses no write of its own may go on listing an event that
is gone; the chains that lose a write are linked anew, and these list events only.

**A read of another source is the case in point** (`Interleaving.Graph.Laid.apply`): a write takes
effect last, an earlier read sees it, the events in between go, and clocks are computed anew.
-/

namespace Interleaving

namespace Graph

variable {g g' g'' : Graph} {a b k w read : Key} {e : Event} {t n i : Nat} {loc : Location}
  {removed : List Key} {N : Nat}

/-- **Some events have gone**, and the others are as they were. A chain has lost the events that
have gone, or it is as it was. -/
structure Sheds (g g' : Graph) (removed : List Key) : Prop where
  order : g'.order = g.order.filter fun k => !removed.contains k
  event : ∀ k ∈ g'.order, g'.event? k = g.event? k
  unlabelled : (∀ k, g.isLabel k = false) → ∀ k, g'.isLabel k = false
  chain : ∀ loc, g'.chain loc = g.chain loc ∨ g'.chain loc = (g.chain loc).filter fun k =>
    !removed.contains k

namespace Sheds

theorem mem_iff (h : Sheds g g' removed) : k ∈ g'.order ↔ k ∈ g.order ∧ k ∉ removed := by
  rw [h.order, List.mem_filter]
  simp

theorem recoheres (h : Sheds g g' removed) (hr : Recoheres g' g'') : Sheds g g'' removed where
  order := hr.order.trans h.order
  event := fun k hk => (hr.event k).trans (h.event k (hr.order ▸ hk))
  unlabelled := fun hlabel k => by
    rw [isLabel, kindOf?_congr (hr.event k), ← isLabel, h.unlabelled hlabel]
  chain := fun loc => by
    have hchain : g''.chain loc = g'.chain loc := by unfold Graph.chain chain?; rw [hr.chains]
    rw [hchain]
    exact h.chain loc

end Sheds

/-- What can be taken out shows in the total order. -/
theorem Removable.of_order (h : g.Removable removed) (horder : g'.order = g.order) :
    g'.Removable removed where
  init := h.init
  mem := fun hk => horder ▸ h.mem hk
  closed := fun hij hi hj => h.closed hij hi (horder ▸ hj)

namespace Laid

variable (h : g.Laid)
include h

/-! ### Chains that are linked anew -/

/-- A chain of events is linked anew. -/
theorem relinkAt (g₀ : Graph) (hmem : ∀ k ∈ g.chain loc, k ∈ g.order) :
    (g₀.relinkAt g loc).Laid ∧ Recoheres g (g₀.relinkAt g loc) := by
  unfold Graph.relinkAt
  split
  · exact ⟨h, .refl g⟩
  · rename_i hlong
    refine h.relink (g₀.chain loc) ((h.strung loc).resolve_left fun hnil => hlong ?_) hmem
    rw [hnil]
    exact Nat.zero_le 1

omit h in
theorem relinkAll (g₀ : Graph) (locs : List Location) (h : g.Laid)
    (hmem : ∀ loc ∈ locs, ∀ k ∈ g.chain loc, k ∈ g.order) :
    (locs.foldl g₀.relinkAt g).Laid ∧ Recoheres g (locs.foldl g₀.relinkAt g) := by
  induction locs generalizing g with
  | nil => exact ⟨h, .refl g⟩
  | cons loc locs ih =>
    obtain ⟨hl, hr⟩ := h.relinkAt g₀ (hmem loc List.mem_cons_self)
    have hmore : ∀ loc' ∈ locs, ∀ k ∈ (g₀.relinkAt g loc).chain loc',
        k ∈ (g₀.relinkAt g loc).order := by
      intro loc' hloc' k hk
      rw [chain, chain?, hr.chains, ← chain?, ← chain] at hk
      rw [hr.order]
      exact hmem loc' (List.mem_cons_of_mem _ hloc') k hk
    obtain ⟨hl', hr'⟩ := ih hl hmore
    exact ⟨hl', hr.trans hr'⟩

/-! ### Taking events out -/

theorem sheds_stripped : Sheds g (g.stripped removed) removed where
  order := rfl
  event := by
    intro k hk
    obtain ⟨hk, hstay⟩ := mem_order_stripped.mp hk
    rw [event?_stripped, if_neg ((h.not_gone_iff hk).mpr hstay)]
  unlabelled := fun hlabel k => by
    rw [← Bool.not_eq_true, isLabel_stripped, hlabel]
    simp
  chain := by
    intro loc
    have hchain := chain_without g removed loc
    rw [show (g.without removed).chain loc = (g.stripped removed).chain loc from rfl] at hchain
    rw [hchain]
    split
    · exact Or.inr rfl
    · exact Or.inl rfl

theorem stripped (hr : g.Removable removed) : (g.stripped removed).Laid where
  toShaped := h.toShaped.shaped_stripped hr
  sequence := by
    intro t i j hij hj
    obtain ⟨hj, hstay⟩ := mem_order_stripped.mp hj
    have hi : .place t i ∉ removed := fun hi => hstay (hr.closed hij hi hj)
    exact before_filter.mpr ⟨by simpa using hi, by simpa using hstay, h.sequence hij hj⟩
  linked := by
    intro t i hk
    obtain ⟨hk, hstay⟩ := mem_order_stripped.mp hk
    have hprior : Key.prior t i ∈ g.order ∧ Key.prior t i ∉ removed := by
      cases i with
      | zero => exact ⟨h.init_mem, hr.init⟩
      | succ i => exact ⟨h.mem_of_lt hk (Nat.lt_succ_self i),
          fun hgone => hstay (hr.closed (Nat.lt_succ_self i) hgone hk)⟩
    exact in_stripped.mpr ⟨h.linked hk, (h.not_gone_iff hprior.1).mpr hprior.2,
      (h.not_gone_iff hk).mpr hstay⟩
  located := by
    intro k e he
    rw [event?_stripped] at he
    split at he
    · cases he
    · exact h.located he
  waits := h.waits
  strung := by
    intro loc
    rcases h.sheds_stripped.chain loc with heq | heq <;> rw [heq]
    · exact h.strung loc
    · refine (h.strung loc).imp (fun hnil => by rw [hnil]; rfl) fun hstrung => hstrung.filter ?_
      simpa using hr.init

/-- The chains that have lost a write list events only. -/
theorem mem_chain_stripped (hres : g.Resolved) (hloc : loc ∈ g.touchedLocations removed)
    (hk : k ∈ (g.stripped removed).chain loc) : k ∈ (g.stripped removed).order := by
  have hpruned : loc ∈ g.prunedLocations removed := by
    unfold touchedLocations at hloc
    unfold prunedLocations
    rw [List.mem_eraseDups, List.mem_map] at hloc
    rw [List.mem_eraseDups, List.mem_map]
    obtain ⟨m, hm, rfl⟩ := hloc
    obtain ⟨hmem, htest⟩ := List.mem_filter.mp hm
    obtain ⟨hgone, hwrite⟩ := Bool.and_eq_true_iff.mp htest
    obtain ⟨k, -, hk⟩ := List.mem_filterMap.mp hmem
    have hlocated :=
      h.located (show g.event? k = some m.event by rw [event?, hk]; rfl) (Or.inr hwrite)
    have hhas : m.event.hasLocation = true := by
      unfold Event.hasLocation
      simpa using hlocated
    exact ⟨m, List.mem_filter.mpr ⟨hmem, Bool.and_eq_true_iff.mpr ⟨hgone, hhas⟩⟩, rfl⟩
  have hchain : (g.stripped removed).chain loc = (g.chain loc).filter fun k =>
    !removed.contains k := by
    rw [show (g.stripped removed).chain loc = (g.without removed).chain loc from rfl, chain_without,
      if_pos hpruned]
  rw [hchain, List.mem_filter] at hk
  exact mem_order_stripped.mpr ⟨hres _ _ hk.1, by simpa using hk.2⟩

/-- **Events that nothing stays behind are taken out.** -/
theorem prune (hr : g.Removable removed) (hres : g.Resolved) :
    (g.prune removed).Laid ∧ Sheds g (g.prune removed) removed := by
  unfold Graph.prune
  split
  · rename_i hempty
    rw [List.isEmpty_iff] at hempty
    subst hempty
    exact ⟨h, (List.filter_eq_self.mpr fun _ _ => rfl).symm, fun _ _ => rfl, id,
      fun _ => Or.inl rfl⟩
  · obtain ⟨hl, hre⟩ :=
      (h.stripped hr).relinkAll g (g.touchedLocations removed) fun loc hloc k hk =>
      h.mem_chain_stripped hres hloc hk
    exact ⟨hl, h.sheds_stripped.recoheres hre⟩

end Laid

/-- Nothing is taken out behind the last event. -/
theorem restrict_last (hlatest : ∃ o, g.order = o ++ [k]) (hnodup : g.order.Nodup) :
    g.restrict k = .ok g := by
  obtain ⟨o, ho⟩ := hlatest
  have hnot : k ∉ o := by
    rw [ho] at hnodup
    exact fun hk => (List.nodup_append.mp hnodup).2.2 _ hk _ (List.mem_singleton_self k) rfl
  have hdrop : g.order.drop (o.length + 1) = [] := by
    rw [ho]
    exact List.drop_eq_nil_of_le (by simp)
  unfold restrict
  rw [indexOf?_of_split ho hnot]
  dsimp only
  rw [hdrop, takeOut_nil]

/-! ### An earlier read sees a new write -/

/-- A backward revisit is applied in three steps that may break off. -/
theorem apply_ok (hg' : (BackwardRevisit.apply read w removed).run g = .ok () g') :
    ∃ c c', (g.trackCoherency w).changeReadsFrom read w = .ok c ∧ c.restrictBySet removed = .ok c' ∧
      Graph.recomputeClocks.run c' = .ok () g' := by
  simp only [BackwardRevisit.apply, BackwardRevisit.change, EStateM.run, bind, EStateM.bind,
    modify, modifyGet, MonadStateOf.modifyGet, EStateM.modifyGet, get, getThe, MonadStateOf.get,
    EStateM.get] at hg'
  cases hc : (g.trackCoherency w).changeReadsFrom read w with
  | error e =>
    rw [hc] at hg'
    cases hg'
  | ok c =>
    rw [hc] at hg'
    dsimp only [set, MonadStateOf.set, EStateM.set] at hg'
    cases hc' : c.restrictBySet removed with
    | error e =>
      rw [hc'] at hg'
      cases hg'
    | ok c' =>
      rw [hc'] at hg'
      exact ⟨c, c', rfl, hc', hg'⟩

/-- A graph from which events were taken out and whose clocks were computed anew. -/
structure Resumes (g g' : Graph) (w : Key) (removed : List Key) : Prop where
  order : g'.order = g.order.filter fun k => !removed.contains k
  event : ∀ k ∈ g'.order, g'.event? k = g.event? k
  last : ∃ ks, g'.chain (g.locationOf w) = ks ++ [w]

theorem locationOf_eq_of_event? (h : g.event? k = some e) : g.locationOf k = e.location := by
  obtain ⟨m, hm, rfl⟩ := Option.map_eq_some_iff.mp h
  rw [locationOf, hm]
  rfl

theorem locationOf_congr (h : g'.event? k = g.event? k) : g'.locationOf k = g.locationOf k := by
  unfold event? at h
  have hmap : ∀ g : Graph, g.locationOf k =
      (((g.find? k).map (·.event)).map (·.location)).getD .none := fun g => by
    rw [Option.map_map]
    rfl
  rw [hmap, hmap, h]

/-- **A read sees a new write**, and the events that must go for it are gone. -/
theorem Laid.apply (h : g.Laid) (hlabel : ∀ k, g.isLabel k = false) (hroomy : g.Roomy N)
    (hres : g.Resolved) (hw : .place t n ∈ g.order)
    (hnew : .place t n ∉ g.chain (g.locationOf (.place t n))) (hr : g.Removable removed)
    (hstay : .place t n ∉ removed)
    (hg' : (BackwardRevisit.apply read (.place t n) removed).run g = .ok () g') :
    g'.Fresh N ∧ Resumes g g' (.place t n) removed := by
  obtain ⟨c, c', hchange, hset, hrun⟩ := apply_ok hg'
  obtain ⟨hlt, hrest, ht⟩ := h.trackCoherency hres hw (Or.inl hnew)
  have hhas : (g.trackCoherency (.place t n)).Has (.place t n) := hlt.has (ht.order ▸ hw)
  obtain ⟨hlc, horder, hchain, hevent⟩ := hlt.changeReadsFrom hhas hchange
  have hresc : c.Resolved := fun loc k hk => by
    rw [horder]
    exact hrest loc k (hchain loc ▸ hk)
  obtain rfl := restrictBySet_ok hset
  obtain ⟨hlp, hs⟩ := hlc.prune (hr.of_order (horder.trans ht.order)) hresc
  have hevent' : ∀ k, c.event? k = g.event? k := fun k => (hevent k).trans (ht.event k)
  have hlabelc : ∀ k, c.isLabel k = false := fun k => by
    rw [isLabel, kindOf?_congr (hevent' k), ← isLabel, hlabel]
  have hkept : ∀ {k}, k ∈ (c.prune removed).order ↔ k ∈ g.order ∧ k ∉ removed := by
    intro k
    rw [hs.mem_iff, horder, ht.order]
  have hroomy' := hroomy.of_subset hlp.toShaped (fun k hk => (hkept.mp hk).1) fun k hk =>
    (hs.event k hk).trans (hevent' k)
  obtain ⟨hfresh, hc⟩ := hlp.recomputeClocks (hs.unlabelled hlabelc) hroomy' hrun
  refine ⟨hfresh, ?_, fun k hk => ?_, ?_⟩
  · rw [hc.order, hs.order, horder, ht.order]
  · exact hc.event?.trans ((hs.event k (hc.order ▸ hk)).trans (hevent' k))
  · obtain ⟨ks, hks⟩ := ht.last
    rw [chain, chain?, hc.chains, ← chain?, ← chain]
    rcases hs.chain (g.locationOf (.place t n)) with heq | heq <;> rw [heq, hchain, hks]
    · exact ⟨ks, rfl⟩
    · refine ⟨ks.filter fun k => !removed.contains k, ?_⟩
      rw [List.filter_append]
      simp [hstay]

end Graph

end Interleaving
