import Interleaving.Proofs.Graph.Copy
import Interleaving.Proofs.Graph.Neighbours

/-!
# Taking events out

Pruning takes events out of the table and out of the total order, with all edges from and to them,
and links the chains that have lost a write anew (`Interleaving.Graph.prune_spec`). Only coherency
edges are new.
-/

namespace Interleaving.Graph

variable {g g' g'' : Graph} {a b k : Key} {r : Relation} {loc : Location} {ks removed : List Key}
  {P : Key → Key → Prop}

/-! ### Chains that are linked anew -/

/-- The same events with the same edges but for coherency. -/
structure Recoheres (g g' : Graph) : Prop where
  order : g'.order = g.order
  chains : g'.chains = g.chains
  event : ∀ k, g'.event? k = g.event? k
  tidy : g.Tidy → g'.Tidy
  mirrored : g.Mirrored → g'.Mirrored
  other : ∀ {r a b}, r ≠ .coherency → (g'.In r a b ↔ g.In r a b)

namespace Recoheres

theorem refl (g : Graph) : Recoheres g g := ⟨rfl, rfl, fun _ => rfl, id, id, fun _ => Iff.rfl⟩

/-- Chains can be linked anew twice. -/
theorem trans (h : Recoheres g g') (h' : Recoheres g' g'') : Recoheres g g'' where
  order := h'.order.trans h.order
  chains := h'.chains.trans h.chains
  event := fun k => (h'.event k).trans (h.event k)
  tidy := fun hg => h'.tidy (h.tidy hg)
  mirrored := fun hg => h'.mirrored (h.mirrored hg)
  other := fun hr => (h'.other hr).trans (h.other hr)

theorem has_iff (h : Recoheres g g') : g'.Has k ↔ g.Has k := by
  rw [has_iff_event?, has_iff_event?, h.event]

theorem unlink (g : Graph) (a b : Key) : Recoheres g (g.unlink a b .coherency) where
  order := unlink_order ..
  chains := rfl
  event := fun _ => event?_unlink
  tidy := fun hg => hg.unlink
  mirrored := by
    intro hg r c d hin
    obtain ⟨hin, hne⟩ := in_unlink.mp hin
    exact out_unlink.mpr ⟨hg r c d hin, hne⟩
  other := by
    intro r c d hr
    rw [in_unlink]
    exact and_iff_left fun heq => hr heq.1

theorem link (ha : g.Has a) (hb : g.Has b) : Recoheres g (g.link a b .coherency) where
  order := link_order ..
  chains := link_chains ..
  event := fun _ => event?_link
  tidy := fun hg => hg.link ha hb
  mirrored := by
    intro hg r c d hin
    exact (out_link ha).mpr (((in_link hb).mp hin).imp_left (hg r c d))
  other := by
    intro r c d hr
    rw [in_link hb]
    exact or_iff_left fun heq => hr heq.1

end Recoheres

/-- Taking the edges along a chain away changes coherency only, and adds nothing. -/
theorem unlinkChain_spec (g : Graph) (ks : List Key) :
    Recoheres g (g.unlinkChain ks) ∧ ∀ {a b}, (g.unlinkChain ks).In .coherency a b →
    g.In .coherency a b := by
  fun_induction Graph.unlinkChain g ks with
  | case1 g a b more ih =>
    refine ⟨(Recoheres.unlink g a b).trans ih.1, fun hin => ?_⟩
    exact (in_unlink.mp (ih.2 hin)).1
  | case2 => exact ⟨.refl _, id⟩

/-- Linking a chain changes coherency only, and adds the edges along the chain. -/
theorem linkChain_spec (g : Graph) (ks : List Key) (hhas : ∀ k ∈ ks, g.Has k) :
    Recoheres g (g.linkChain ks) ∧
      ∀ {a b}, (g.linkChain ks).In .coherency a b → g.In .coherency a b ∨ [a, b] <:+: ks := by
  fun_induction Graph.linkChain g ks with
  | case1 g a b more ih =>
    have ha := hhas a List.mem_cons_self
    have hb := hhas b (List.mem_cons_of_mem _ List.mem_cons_self)
    obtain ⟨hr, hin⟩ := ih fun k hk => has_link.mpr (hhas k (List.mem_cons_of_mem _ hk))
    refine ⟨(Recoheres.link ha hb).trans hr, fun {c d} hcd => ?_⟩
    rcases hin hcd with hcd | hcd
    · rcases (in_link hb).mp hcd with hcd | ⟨-, rfl, rfl⟩
      · exact Or.inl hcd
      · exact Or.inr (infix_cons_iff.mpr (Or.inl ⟨rfl, rfl⟩))
    · exact Or.inr (infix_cons_iff.mpr (Or.inr hcd))
  | case2 => exact ⟨.refl _, Or.inl⟩

/-! ### Events that are taken out -/

/-- Events have gone, with all edges from and to them; coherency links events of which `P` holds. -/
structure Prunes (g g' : Graph) (removed : List Key) (P : Key → Key → Prop) : Prop where
  order : g'.order = g.order.filter fun k => !removed.contains k
  event : ∀ k, g'.event? k = if k ∈ removed then none else g.event? k
  tidy : g'.Tidy
  mirrored : g'.Mirrored
  other : ∀ {r a b}, r ≠ .coherency → (g'.In r a b ↔ g.In r a b ∧ a ∉ removed ∧ b ∉ removed)
  coherency : ∀ {a b}, g'.In .coherency a b → P a b

/-- Linking chains anew brings no event back. -/
theorem Prunes.recoheres (h : Prunes g g' removed P) (hr : Recoheres g' g'')
    (hcoherency : ∀ {a b}, g''.In .coherency a b → P a b) : Prunes g g'' removed P where
  order := hr.order.trans h.order
  event := fun k => (hr.event k).trans (h.event k)
  tidy := hr.tidy h.tidy
  mirrored := hr.mirrored h.mirrored
  other := fun hne => (hr.other hne).trans (h.other hne)
  coherency := hcoherency

/-- The graph without some events; chains are not linked anew. -/
def without (g : Graph) (removed : List Key) : Graph :=
  { nodes := (g.nodes.filter fun n => !removed.contains n.key).map fun n => n.dropKeys removed
    tasks := (g.tasks.map (g.keptTask removed)).map (·.1)
    order := g.order.filter fun k => !removed.contains k
    chains := g.chains.map fun c =>
      if (g.prunedLocations removed).contains c.1 then (c.1,
        c.2.filter fun k => !removed.contains k) else c
    waiting := g.waiting }

/-- Nodes are gone with their events, and the others lose the edges to them. -/
theorem find?_without (g : Graph) (removed : List Key) (k : Key) :
    (g.without removed).find? k = if k ∈ removed then none else (g.find? k).map fun n =>
      n.dropKeys removed := by
  have hfilter := find?_filter_key (fun k => !removed.contains k) g.nodes k
  unfold find? without
  rw [List.find?_map]
  have hcomp : ((fun n : Node => n.key == k) ∘ fun n : Node => n.dropKeys removed) = fun n : Node =>
    n.key == k := rfl
  rw [hcomp, hfilter]
  by_cases hk : k ∈ removed
  · simp [hk]
  · simp [hk]

theorem event?_without (g : Graph) (removed : List Key) (k : Key) :
    (g.without removed).event? k = if k ∈ removed then none else g.event? k := by
  unfold event?
  rw [find?_without]
  split
  · rfl
  · rw [Option.map_map]
    rfl

/-- The edges that are left are those between events that are left. -/
theorem in_without : (g.without removed).In r a b ↔ g.In r a b ∧ a ∉ removed ∧ b ∉ removed := by
  unfold In
  rw [find?_without]
  by_cases hb : b ∈ removed
  · simp [hb]
  · rw [if_neg hb]
    constructor
    · rintro ⟨m, hm, hmem⟩
      obtain ⟨n, hn, rfl⟩ := Option.map_eq_some_iff.mp hm
      obtain ⟨hmem, ha⟩ := Edges.mem_without.mp hmem
      exact ⟨⟨n, hn, hmem⟩, ha, hb⟩
    · rintro ⟨⟨n, hn, hmem⟩, ha, -⟩
      exact ⟨_, by rw [hn]; rfl, Edges.mem_without.mpr ⟨hmem, ha⟩⟩

theorem out_without : (g.without removed).Out r a b ↔ g.Out r a b ∧ a ∉ removed ∧ b ∉ removed := by
  unfold Out
  rw [find?_without]
  by_cases ha : a ∈ removed
  · simp [ha]
  · rw [if_neg ha]
    constructor
    · rintro ⟨m, hm, hmem⟩
      obtain ⟨n, hn, rfl⟩ := Option.map_eq_some_iff.mp hm
      obtain ⟨hmem, hb⟩ := Edges.mem_without.mp hmem
      exact ⟨⟨n, hn, hmem⟩, ha, hb⟩
    · rintro ⟨⟨n, hn, hmem⟩, -, hb⟩
      exact ⟨_, by rw [hn]; rfl, Edges.mem_without.mpr ⟨hmem, hb⟩⟩

/-- What is left is tidy. -/
theorem tidy_without (h : g.Tidy) : (g.without removed).Tidy where
  keys := by
    have hkeys : (g.without removed).nodes.map (·.key) =
        (g.nodes.filter fun n => !removed.contains n.key).map (·.key) := by
      unfold without
      rw [List.map_map]
      rfl
    rw [hkeys]
    exact h.keys.sublist (List.filter_sublist.map _)
  known := by
    intro r a b ho
    obtain ⟨ho, hkept⟩ := out_without.mp ho
    exact in_without.mpr ⟨h.known ho, hkept⟩
  pred := by
    intro k n hn
    rw [find?_without] at hn
    split at hn
    · cases hn
    · obtain ⟨m, hm, rfl⟩ := Option.map_eq_some_iff.mp hn
      exact Edges.nodup_without (h.pred hm) removed
  succ := by
    intro k n hn
    rw [find?_without] at hn
    split at hn
    · cases hn
    · obtain ⟨m, hm, rfl⟩ := Option.map_eq_some_iff.mp hn
      exact Edges.nodup_without (h.succ hm) removed

/-- Taking out the events without linking chains anew. -/
theorem prunes_without (ht : g.Tidy) (hm : g.Mirrored) (hP : ∀ {a b}, g.In .coherency a b → P a b) :
    Prunes g (g.without removed) removed P where
  order := rfl
  event := event?_without g removed
  tidy := tidy_without ht
  mirrored := by
    intro r a b hin
    obtain ⟨hin, hkept⟩ := in_without.mp hin
    exact out_without.mpr ⟨hm r a b hin, hkept⟩
  other := fun _ => in_without
  coherency := fun hin => hP (in_without.mp hin).1

/-- Looking a chain up when those at some locations have lost events. -/
theorem lookup_map_filter (locs : List Location) (p : Key → Bool) (cs : List (Location × List Key))
    (loc : Location) :
    ((cs.map fun c => if locs.contains c.1 then (c.1, c.2.filter p) else c).lookup loc).getD [] =
      if loc ∈ locs then ((cs.lookup loc).getD []).filter p else (cs.lookup loc).getD [] := by
  induction cs with
  | nil => simp
  | cons c cs ih =>
    obtain ⟨loc', ks⟩ := c
    have hfst : (if locs.contains loc' then (loc', ks.filter p) else (loc', ks)).1 = loc' := by
      split <;> rfl
    rw [List.map_cons, List.lookup_cons, List.lookup_cons, hfst]
    by_cases hloc' : loc = loc'
    · subst hloc'
      rw [beq_self_eq_true]
      by_cases hloc : loc ∈ locs
      · simp [hloc]
      · simp [hloc]
    · rw [beq_false_of_ne hloc']
      exact ih

/-- Chains lose events when an event of their location goes. -/
theorem chain_without (g : Graph) (removed : List Key) (loc : Location) :
    (g.without removed).chain loc =
      if loc ∈ g.prunedLocations removed then (g.chain loc).filter fun k => !removed.contains k
      else g.chain loc :=
  lookup_map_filter (g.prunedLocations removed) (fun k => !removed.contains k) g.chains loc

/-- Where a write has gone, an event has gone. -/
theorem mem_prunedLocations_of_touched
    (hlocated : ∀ {k e}, g.event? k = some e → e.kind.isWrite = true →
      e.hasLocation = true ∧ e.location ≠ .thread)
    (hloc : loc ∈ g.touchedLocations removed) :
    loc ∈ g.prunedLocations removed ∧ loc ≠ .thread := by
  rw [touchedLocations, List.mem_eraseDups, List.mem_map] at hloc
  rw [prunedLocations, List.mem_eraseDups, List.mem_map]
  obtain ⟨n, hn, rfl⟩ := hloc
  obtain ⟨hmem, htest⟩ := List.mem_filter.mp hn
  obtain ⟨hrem, hwrite⟩ := Bool.and_eq_true_iff.mp htest
  obtain ⟨k, -, hk⟩ := List.mem_filterMap.mp hmem
  obtain ⟨hlocation, hthread⟩ := hlocated (by rw [event?, hk]; rfl) hwrite
  exact ⟨⟨n, List.mem_filter.mpr ⟨hmem, Bool.and_eq_true_iff.mpr ⟨hrem, hlocation⟩⟩, rfl⟩, hthread⟩

/-- A chain that has lost writes is linked anew, when there are neighbours in it. -/
def relinkAt (g g' : Graph) (loc : Location) : Graph :=
  if (g'.chain loc).length ≤ 1 then g' else (g'.unlinkChain (g.chain loc)).linkChain (g'.chain loc)

section Relinking

variable (hhas : ∀ {loc k}, loc ≠ .thread → k ∈ g.chain loc → g.Has k)
  (hchain : ∀ {loc a b}, loc ≠ .thread →
    [a, b] <:+: (g.chain loc).filter (fun k => !removed.contains k) → P a b)
include hhas hchain

/-- **One more chain is linked anew.** -/
theorem Prunes.relinkAt (hg' : Prunes g g' removed P)
    (hchains : g'.chains = (g.without removed).chains)
    (hpruned : loc ∈ g.prunedLocations removed) (hthread : loc ≠ .thread) :
    Prunes g (g.relinkAt g' loc) removed P ∧
      (g.relinkAt g' loc).chains = (g.without removed).chains := by
  unfold Graph.relinkAt
  split
  · exact ⟨hg', hchains⟩
  have heq : g'.chain loc = (g.chain loc).filter fun k => !removed.contains k := by
    rw [chain, chain?, hchains, ← chain?, ← chain, chain_without, if_pos hpruned]
  obtain ⟨hu, hunlinked⟩ := unlinkChain_spec g' (g.chain loc)
  have hstays : ∀ k ∈ g'.chain loc, (g'.unlinkChain (g.chain loc)).Has k := by
    intro k hk
    rw [heq, List.mem_filter] at hk
    have hstay : k ∉ removed := by simpa using hk.2
    rw [hu.has_iff, has_iff_event?, hg'.event, if_neg hstay, ← has_iff_event?]
    exact hhas hthread hk.1
  obtain ⟨hl, hlinked⟩ := linkChain_spec (g'.unlinkChain (g.chain loc)) (g'.chain loc) hstays
  refine ⟨hg'.recoheres (hu.trans hl) fun {a b} hin => ?_,
    hl.chains.trans (hu.chains.trans hchains)⟩
  rcases hlinked hin with hin | hin
  · exact hg'.coherency (hunlinked hin)
  · exact hchain hthread (heq ▸ hin)

/-- **All chains that have lost a write are linked anew**, one after the other. -/
theorem Prunes.relinkAll {locs : List Location} (hg' : Prunes g g' removed P)
    (hchains : g'.chains = (g.without removed).chains)
    (hlocs : ∀ loc ∈ locs, loc ∈ g.prunedLocations removed ∧ loc ≠ .thread) :
    Prunes g (locs.foldl g.relinkAt g') removed P := by
  induction locs generalizing g' with
  | nil => exact hg'
  | cons loc locs ih =>
    obtain ⟨hpruned, hthread⟩ := hlocs loc List.mem_cons_self
    obtain ⟨hg', hchains⟩ := hg'.relinkAt hhas hchain hchains hpruned hthread
    exact ih hg' hchains fun loc hl => hlocs loc (List.mem_cons_of_mem _ hl)

end Relinking

/-- Without labels, no task has one that must go with what stands before it. -/
theorem snd_keptTask (hlabel : ∀ k, g.isLabel k = false) (ks : List Key) :
    (g.keptTask removed ks).2 = none := by
  unfold keptTask
  dsimp only
  split
  · rw [hlabel]
    rfl
  · rfl

/-- **Taking events out** of a graph without labels. -/
theorem prune_spec (hlabel : ∀ k, g.isLabel k = false) (ht : g.Tidy) (hm : g.Mirrored)
    (hlocated : ∀ {k e}, g.event? k = some e → e.kind.isWrite = true →
      e.hasLocation = true ∧ e.location ≠ .thread)
    (hhas : ∀ {loc k}, loc ≠ .thread → k ∈ g.chain loc → g.Has k)
    (hP : ∀ {a b}, g.In .coherency a b → P a b)
    (hchain : ∀ {loc a b}, loc ≠ .thread →
      [a, b] <:+: (g.chain loc).filter (fun k => !removed.contains k) → P a b) :
    Prunes g (g.prune removed) removed P := by
  unfold prune
  split
  · rename_i hempty
    rw [List.isEmpty_iff] at hempty
    subst hempty
    refine ⟨?_, fun k => ?_, ht, hm, fun _ => ?_, hP⟩
    · exact (List.filter_eq_self.mpr fun _ _ => rfl).symm
    · rw [if_neg List.not_mem_nil]
    · simp
  · have hgone : removed ++ (g.tasks.map (g.keptTask removed)).filterMap (·.2) = removed := by
      rw [List.filterMap_map, List.filterMap_eq_nil_iff.mpr, List.append_nil]
      exact fun ks _ => snd_keptTask hlabel ks
    dsimp only
    rw [hgone]
    exact (prunes_without ht hm hP).relinkAll hhas hchain rfl fun loc hloc =>
      mem_prunedLocations_of_touched hlocated hloc

/-! ### Which events can be taken out -/

/-- Only the first event has a key that stands for it. -/
theorem Shaped.isInit_of_ne (h : g.Shaped) (hk : k ∈ g.order) (hne : k ≠ .init) :
    k.isInit = false := by
  obtain ⟨t, i, rfl⟩ := (h.key hk).resolve_left hne
  exact Key.isInit_place t i

theorem isSome_indexOf? : (g.indexOf? k).isSome = true ↔ k ∈ g.order := by
  unfold indexOf?
  rw [List.findIdx?_isSome, List.any_eq_true]
  constructor
  · rintro ⟨x, hx, heq⟩
    exact beq_iff_eq.mp heq ▸ hx
  · exact fun hk => ⟨k, hk, beq_self_eq_true k⟩

/-- The place of an event in the total order. -/
theorem indexOf?_of_split {before after : List Key} (hsplit : g.order = before ++ k :: after)
    (hnot : k ∉ before) : g.indexOf? k = some before.length := by
  have hnone : before.findIdx? (fun x => x == k) = none := by
    rw [List.findIdx?_eq_none_iff]
    intro x hx
    rw [beq_eq_false_iff_ne]
    rintro rfl
    exact hnot hx
  unfold indexOf?
  rw [hsplit, List.findIdx?_append, hnone, List.findIdx?_cons]
  simp

/-- Events can be taken out when the locations that they touch have chains. -/
theorem takeOut_eq (h : g.Chained) (removed : List Key) :
    g.takeOut removed = .ok (g.prune removed) := by
  have hnone : g.untracked? removed = none := by
    rw [untracked?, Option.map_eq_none_iff, List.find?_eq_none]
    intro n hn hbad
    simp only [Bool.and_eq_true, Event.hasLocation, bne_iff_ne, Option.isNone_iff_eq_none] at hbad
    obtain ⟨⟨-, hne⟩, hnone⟩ := hbad
    obtain ⟨k, hk, hfind⟩ := List.mem_filterMap.mp hn
    have hchained := h hk (Option.map_eq_some_iff.mpr ⟨n, hfind, rfl⟩) hne
    rw [Node.location] at hnone
    rw [hnone] at hchained
    cases hchained
  rw [takeOut, hnone]

/-- What is left when events could be taken out. -/
theorem takeOut_ok (hg' : g.takeOut removed = .ok g') : g' = g.prune removed := by
  unfold takeOut at hg'
  split at hg'
  · cases hg'
  · exact (Except.ok.inj hg').symm

/-- Nothing can always be taken out. -/
theorem takeOut_nil (g : Graph) : g.takeOut [] = .ok g := by
  have hnone : g.untracked? [] = none := by
    rw [untracked?, Option.map_eq_none_iff, List.find?_eq_none]
    simp
  rw [takeOut, hnone]
  rfl

/-- Events of the total order other than the first one can be taken out. -/
theorem restrictBySet_eq (h : g.Chained) (hmem : ∀ k ∈ removed, k ∈ g.order ∧ k.isInit = false) :
    g.restrictBySet removed = .ok (g.prune removed) := by
  unfold restrictBySet
  rw [List.find?_eq_none.mpr]
  · exact takeOut_eq h removed
  intro k hk
  obtain ⟨hmem, hinit⟩ := hmem k hk
  have hindex := isSome_indexOf?.mpr hmem
  simp [hinit, Option.isSome_iff_ne_none.mp hindex]

/-- What is left when a set of events could be taken out. -/
theorem restrictBySet_ok (hg' : g.restrictBySet removed = .ok g') : g' = g.prune removed := by
  unfold restrictBySet at hg'
  split at hg'
  · cases hg'
  · exact takeOut_ok hg'

/-- Other keys are refused. -/
theorem restrictBySet_refused (hbad : ∃ k ∈ removed, k.isInit = true ∨ k ∉ g.order) :
    ∃ k ∈ removed, (k.isInit = true ∨ k ∉ g.order) ∧ g.restrictBySet removed =
      .error (.noSuchEvent k) := by
  have htest : ∀ k, (k.isInit || (g.indexOf? k).isNone) = true ↔ k.isInit = true ∨ k ∉ g.order := by
    intro k
    rw [Bool.or_eq_true, ← isSome_indexOf?]
    simp
  unfold restrictBySet
  split
  · rename_i k hk
    have hfound := List.find?_some hk
    exact ⟨k, List.mem_of_find?_eq_some hk, (htest k).mp hfound, rfl⟩
  · rename_i hnone
    obtain ⟨k, hk, hbad⟩ := hbad
    exact absurd ((htest k).mpr hbad) (List.find?_eq_none.mp hnone k hk)

end Interleaving.Graph
