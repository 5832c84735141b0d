import Interleaving.Proofs.Graph.Removal
import Interleaving.Proofs.Graph.Shuffled

/-!
# Chains are linked anew in any order

Events are taken out of a graph as a set, and the chains that lose a write are then linked anew one
after the other. An edge of coherency belongs to the chain that its end is in, so that linking one
chain anew does not touch the edges of another one. **What is left are the same events with the same
chains and the same edges, whichever event of the set and whichever chain comes first**
(`Interleaving.Graph.Regular.restrictBySet_shuffled`). The set can be any set of events; it need not
be closed under program order.
-/

namespace Interleaving.Graph

variable {g g' h : Graph} {a b k : Key} {r : Relation} {loc : Location}
  {removed removed' : List Key} {locs locs' : List Location}

/-- Two graphs with the same events, chains and edges; edges may be listed in another order. -/
structure SameUpToListing (g h : Graph) : Prop where
  order : h.order = g.order
  tasks : h.tasks = g.tasks
  chain? : ∀ loc, h.chain? loc = g.chain? loc
  event? : ∀ k, h.event? k = g.event? k
  in_iff : ∀ r a b, h.In r a b ↔ g.In r a b
  out_iff : ∀ r a b, h.Out r a b ↔ g.Out r a b

/-- Graphs that differ in the order of edges and chains are the same up to listing. -/
theorem Shuffled.sameUpToListing (hs : Shuffled g h) (hlocs : (g.chains.map (·.1)).Nodup) :
    SameUpToListing g h :=
  ⟨hs.order, hs.tasks, hs.chain? hlocs, hs.event?, fun _ _ _ => hs.in_iff, fun _ _ _ => hs.out_iff⟩

/-- Taking events out, where the chains of some locations are linked anew one after the other. -/
def pruneAlong (g : Graph) (removed : List Key) (locs : List Location) : Graph :=
  if removed.isEmpty then g else locs.foldl g.relinkAt (g.stripped removed)

/-- The chains are those that have lost a write. -/
theorem prune_eq_pruneAlong (g : Graph) (removed : List Key) :
    g.prune removed = g.pruneAlong removed (g.touchedLocations removed) := rfl

/-! ### Events of a set -/

namespace Shuffled

variable (hs : Shuffled g h)
include hs

/-- Tasks keep the same events. -/
theorem keptTask (hmem : ∀ k, k ∈ removed' ↔ k ∈ removed) (ks : List Key) :
    h.keptTask removed' ks = g.keptTask removed ks := by
  have hfilter : (ks.filter fun k => !removed'.contains k) = ks.filter fun k =>
    !removed.contains k :=
    List.filter_congr fun k _ => by simp only [List.contains_eq_mem, hmem]
  unfold Graph.keptTask
  dsimp only
  rw [hfilter]
  simp only [hs.isLabel]

theorem stale (hmem : ∀ k, k ∈ removed' ↔ k ∈ removed) : h.stale removed' = g.stale removed := by
  unfold Graph.stale
  rw [hs.tasks, List.map_congr_left fun ks _ => hs.keptTask hmem ks]

/-- Corresponding events stand at the same places of the total order. -/
theorem events : List.Forall₂ Node.Shuffled g.events h.events := by
  unfold Graph.events
  rw [hs.order]
  induction g.order with
  | nil => exact .nil
  | cons k ks ih =>
    rw [List.filterMap_cons, List.filterMap_cons]
    cases hm : g.find? k with
    | none =>
      rw [hs.find?_eq_none hm]
      exact ih
    | some m =>
      obtain ⟨n, hn, hmn⟩ := hs.find? hm
      rw [hn]
      exact .cons hmn ih

theorem locations_filter (p p' : Node → Bool) (hp : ∀ m n : Node, m.Shuffled n → p' n = p m) :
    (h.events.filter p').map (·.location) = (g.events.filter p).map (·.location) := by
  have hevents := hs.events
  generalize g.events = ns at hevents
  generalize h.events = ms at hevents
  induction hevents with
  | nil => rfl
  | @cons m n _ _ hmn _ ih =>
    rw [List.filter_cons, List.filter_cons, hp m n hmn]
    split
    · rw [List.map_cons, List.map_cons, ih, hmn.location]
    · exact ih

theorem touchedLocations (hmem : ∀ k, k ∈ removed' ↔ k ∈ removed) :
    h.touchedLocations removed' = g.touchedLocations removed := by
  unfold Graph.touchedLocations
  rw [hs.locations_filter _ _ fun m n hmn => ?_]
  rw [hmn.key, hmn.kind]
  simp only [List.contains_eq_mem, hmem]

theorem prunedLocations (hmem : ∀ k, k ∈ removed' ↔ k ∈ removed) :
    h.prunedLocations removed' = g.prunedLocations removed := by
  unfold Graph.prunedLocations
  rw [hs.locations_filter _ _ fun m n hmn => ?_]
  rw [hmn.key, hmn.event]
  simp only [List.contains_eq_mem, hmem]

/-- The graphs of what stays are shuffled as well. -/
theorem stripped (hmem : ∀ k, k ∈ removed' ↔ k ∈ removed) :
    Shuffled (g.stripped removed) (h.stripped removed') := by
  have hgone : ∀ k, (removed' ++ g.stale removed).contains k =
      (removed ++ g.stale removed).contains k := fun k => by
    simp only [List.contains_eq_mem, List.mem_append, hmem]
  have hstays : ∀ ks : List Key, (ks.filter fun k => !removed'.contains k) = ks.filter fun k =>
    !removed.contains k :=
    fun ks => List.filter_congr fun k _ => by simp only [List.contains_eq_mem, hmem]
  refine ⟨?_, ?_, ?_, ?_, hs.waiting⟩
  · unfold Graph.stripped without
    dsimp only
    rw [hs.stale hmem, List.forall₂_map_left_iff, List.forall₂_map_right_iff]
    simp only [hgone]
    refine (forall₂_filter_key (fun k => !(removed ++ g.stale removed).contains k) hs.nodes).imp
      fun m n hmn => ?_
    refine ⟨hmn.event, hmn.clock, hmn.attributes, ?_, ?_⟩
    · simp only [Node.dropKeys, Edges.without, hgone]
      exact hmn.succ.filter _
    · simp only [Node.dropKeys, Edges.without, hgone]
      exact hmn.pred.filter _
  · unfold Graph.stripped
    dsimp only
    rw [hs.tasks, List.map_congr_left fun ks _ => hs.keptTask hmem ks]
  · unfold Graph.stripped
    dsimp only
    rw [hs.order, hstays]
  · unfold Graph.stripped without
    dsimp only
    simp only [hs.prunedLocations hmem, hstays]
    exact hs.chains.map _

end Shuffled

/-! ### Chains in any order -/

/-- The edges of a regular graph are known at both ends when chains have been linked anew. -/
theorem Relinked.out_iff {done : List Location} (hr : Relinked g removed done g') (hg : g.Regular) :
    g'.Out r a b ↔ g'.In r a b := by
  have htidy : (g.stripped removed).Tidy :=
    tidy_of_nodes (g := g.without (removed ++ g.stale removed)) rfl (tidy_without hg.tidy)
  have hmirrored : (g.stripped removed).Mirrored := fun r a b hab =>
    out_stripped.mpr ((in_stripped.mp hab).imp_left (hg.mirrored r a b))
  exact ⟨(hr.recoheres.tidy htidy).known, hr.recoheres.mirrored hmirrored _ _ _⟩

namespace Regular

variable (hg : g.Regular)
include hg

/-- **Events are taken out in the same way in every order.** -/
theorem pruneAlong_shuffled (hs : Shuffled g h) (hmem : ∀ k, k ∈ removed' ↔ k ∈ removed)
    (hinit : .init ∉ removed) (hlocs : ∀ loc ∈ locs, loc ≠ .thread)
    (hsame : ∀ loc, loc ∈ locs' ↔ loc ∈ locs) :
    SameUpToListing (g.pruneAlong removed locs) (h.pruneAlong removed' locs') := by
  have hempty : removed'.isEmpty = removed.isEmpty := by
    rw [Bool.eq_iff_iff, List.isEmpty_iff, List.isEmpty_iff, List.eq_nil_iff_forall_not_mem,
      List.eq_nil_iff_forall_not_mem]
    simp only [hmem]
  unfold pruneAlong
  rw [hempty]
  split
  · exact hs.sameUpToListing hg.locations
  · have hh := hs.regular hg
    have hlocs' : ∀ loc ∈ locs', loc ≠ .thread := fun loc hloc => hlocs loc ((hsame loc).mp hloc)
    have hstripped := hs.stripped hmem
    have hnodup : ((g.stripped removed).chains.map (·.1)).Nodup :=
      map_fst_chains_stripped g removed ▸ hg.locations
    have hr := relinked_foldl hg hinit hlocs
    have hr' := relinked_foldl hh (fun hin => hinit ((hmem _).mp hin)) hlocs'
    have hin : ∀ r a b, (locs'.foldl h.relinkAt (h.stripped removed')).In r a b ↔
        (locs.foldl g.relinkAt (g.stripped removed)).In r a b := by
      intro r a b
      by_cases hr₀ : r = .coherency
      · subst hr₀
        simp only [hr.coherency, hr'.coherency, List.mem_reverse, hsame, hmem,
          hstripped.chain hnodup, hs.chain hg.locations]
      · rw [hr.recoheres.other hr₀, hr'.recoheres.other hr₀, hstripped.in_iff]
    refine ⟨?_, ?_, fun loc => ?_, fun k => ?_, hin, fun r a b => ?_⟩
    · rw [hr.recoheres.order, hr'.recoheres.order, hstripped.order]
    · rw [hr.tasks, hr'.tasks, hstripped.tasks]
    · rw [Graph.chain?, Graph.chain?, hr.recoheres.chains, hr'.recoheres.chains]
      exact hstripped.chain? hnodup loc
    · rw [hr.recoheres.event, hr'.recoheres.event, hstripped.event?]
    · rw [hr'.out_iff hh, hr.out_iff hg, hin]

/-- **Taking a set of events out does not depend on the order of the set, nor on that of the chains
that are linked anew.** A set that holds something else than events is refused in every order. -/
theorem restrictBySet_shuffled (hs : Shuffled g h) (hmem : ∀ k, k ∈ removed' ↔ k ∈ removed) :
    (∃ k ∈ removed, ∃ k' ∈ removed', g.restrictBySet removed = .error (.noSuchEvent k) ∧
        h.restrictBySet removed' = .error (.noSuchEvent k')) ∨
      ∃ g' h', g.restrictBySet removed = .ok g' ∧ h.restrictBySet removed' = .ok h' ∧
        SameUpToListing g' h' ∧
        ∀ locs, locs.Perm (h.touchedLocations removed') →
          SameUpToListing g' (h.pruneAlong removed' locs) := by
  by_cases hbad : ∃ k ∈ removed, k.isInit = true ∨ k ∉ g.order
  · obtain ⟨k, hk, -, hrefused⟩ := restrictBySet_refused hbad
    obtain ⟨k', hk', hbad⟩ := hbad
    obtain ⟨k', hk', -, hrefused'⟩ :=
      restrictBySet_refused (g := h) ⟨k', (hmem k').mpr hk', by rwa [hs.order]⟩
    exact Or.inl ⟨k, hk, k', hk', hrefused, hrefused'⟩
  · have hgood : ∀ k ∈ removed, k ∈ g.order ∧ k.isInit = false := by
      intro k hk
      have hk' := not_or.mp fun hor => hbad ⟨k, hk, hor⟩
      exact ⟨not_not.mp hk'.2, Bool.eq_false_iff.mpr hk'.1⟩
    have hinit : .init ∉ removed := fun hin => absurd (hgood _ hin).2 (by decide)
    have halong : ∀ locs, locs.Perm (h.touchedLocations removed') →
        SameUpToListing (g.prune removed) (h.pruneAlong removed' locs) := by
      intro locs hperm
      rw [hs.touchedLocations hmem] at hperm
      rw [prune_eq_pruneAlong]
      exact hg.pruneAlong_shuffled hs hmem hinit (fun loc => hg.touched_ne_thread) fun loc =>
        hperm.mem_iff
    refine Or.inr ⟨_, _, restrictBySet_eq hg.chained hgood,
      restrictBySet_eq (hs.regular hg).chained fun k hk => ?_, halong _ (.refl _), halong⟩
    rw [hs.order]
    exact hgood k ((hmem k).mp hk)

end Regular

end Interleaving.Graph
