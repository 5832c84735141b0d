import Interleaving.Proofs.Graph.Pairs
import Interleaving.Proofs.Graph.Trimming
import Interleaving.Proofs.Relocation.Graph

/-!
# Alternatives and orders after a renaming

Which writes a read could see, where a write could take effect and which reads could see it, the
changes that try it, and the orders that explain a graph: all of them ask for locations only to
compare them, so a renaming makes no difference.
-/

namespace Interleaving.Graph

variable (ρ : Renaming) (g : Graph)

/-- Computations on the members of a list, whose results are changed. -/
theorem mapM_map {ε α β γ : Type} {f : α → Except ε β} {f' : α → Except ε γ} (φ : β → γ)
    (h : ∀ a, f' a = (f a).map φ) (xs : List α) : xs.mapM f' = (xs.mapM f).map (List.map φ) := by
  induction xs with
  | nil => rfl
  | cons x xs ih =>
    rw [List.mapM_cons, List.mapM_cons, h, ih]
    cases f x with
    | error e => rfl
    | ok y => cases xs.mapM f <;> rfl

/-! ### Alternatives -/

/-- The newest write of a location is that of the renamed one. -/
@[simp] theorem relocate_lastWrite (l : Location) :
    (g.relocate ρ).lastWrite (ρ l) = g.lastWrite l := by
  rw [lastWrite, lastWrite, relocate_chain]

/-- The way back to the newest write that happens before an event is the same. -/
@[simp] theorem relocate_splitBefore (target : Key) (ks : List Key) :
    (g.relocate ρ).splitBefore target ks = g.splitBefore target ks := by
  have hup : ∀ ks, (g.relocate ρ).upToBefore target ks = g.upToBefore target ks := by
    intro ks
    induction ks with
    | nil => rfl
    | cons k older ih => rw [upToBefore, upToBefore, relocate_happensBefore, ih]
  exact hup ks.reverse

/-- The location of an event is renamed. -/
@[simp] theorem relocate_locationOf (k : Key) :
    (g.relocate ρ).locationOf k = ρ (g.locationOf k) := by
  rw [locationOf, locationOf, relocate_find?]
  cases g.find? k <;> rfl

/-- The same older writes could be seen. -/
@[simp] theorem relocate_alternativeWrites (read : Key) :
    (g.relocate ρ).alternativeWrites read = g.alternativeWrites read := by
  simp only [alternativeWrites, relocate_locationOf, relocate_chain, relocate_splitBefore]

@[simp] theorem relocate_isExclusiveWrite (k : Key) :
    (g.relocate ρ).isExclusiveWrite k = g.isExclusiveWrite k := by
  rw [isExclusiveWrite, isExclusiveWrite, relocate_kindOf?]

/-- A write can take effect before the same other writes. -/
@[simp] theorem relocate_coherentPlacings (write : Key) :
    (g.relocate ρ).coherentPlacings write = g.coherentPlacings write := by
  simp only [coherentPlacings, relocate_isExclusiveWrite, relocate_locationOf, relocate_chain,
    relocate_splitBefore]

/-- The readers of a write are renamed. -/
theorem relocate_readersOf (write : Key) :
    (g.relocate ρ).readersOf write = (g.readersOf write).map (List.map (·.relocate ρ)) := by
  rw [readersOf, readersOf, mapM_map _ (relocate_node ρ g)]
  congr 2
  rw [relocate_find?]
  cases g.find? write <;> rfl

@[simp] theorem relocate_exclusiveReaders (write : Key) :
    (g.relocate ρ).exclusiveReaders write = g.exclusiveReaders write := by
  rw [exclusiveReaders, exclusiveReaders, relocate_readersOf]
  cases g.readersOf write with
  | error e => rfl
  | ok readers => simp [Except.map, List.filter_map, Function.comp_def]

@[simp] theorem relocate_hasFreeReaders (write : Key) :
    (g.relocate ρ).hasFreeReaders write = g.hasFreeReaders write := by
  rw [hasFreeReaders, hasFreeReaders, relocate_isExclusiveWrite, relocate_exclusiveReaders]

/-- The same reads are concurrent with a write, when they are picked by what renaming keeps. -/
theorem relocate_concurrentReaders (write : Key) (l : Location) (sources : List Key)
    {wanted wanted' : Node → Bool} (h : ∀ n, wanted' (n.relocate ρ) = wanted n) :
    (g.relocate ρ).concurrentReaders write (ρ l) sources wanted' =
      g.concurrentReaders write l sources wanted := by
  unfold concurrentReaders
  rw [mapM_map _ (relocate_readersOf ρ g)]
  cases sources.mapM g.readersOf with
  | error e => rfl
  | ok readers =>
    simp only [Except.map, bind, Except.bind, pure, Except.pure, ← List.map_flatten,
      List.filter_map, List.map_map]
    simp [Function.comp_def, h]

theorem relocate_concurrentReaders_all (write : Key) (l : Location) (sources : List Key) :
    ((g.relocate ρ).concurrentReaders write (ρ l) sources fun _ => true) =
      g.concurrentReaders write l sources fun _ => true :=
  relocate_concurrentReaders ρ g write l sources fun _ => rfl

/-- A new write is offered to the same earlier reads. -/
@[simp] theorem relocate_potentialReads (write : Key) :
    (g.relocate ρ).potentialReads write = g.potentialReads write := by
  unfold potentialReads
  simp only [relocate_locationOf, relocate_chain, relocate_splitBefore, relocate_hasFreeReaders,
    relocate_concurrentReaders_all]

/-- Renaming keeps the mark of an acquisition that has overtaken another one. -/
@[simp] theorem relocate_isFinalLockWrite (k : Key) :
    (g.relocate ρ).isFinalLockWrite k = g.isFinalLockWrite k := by
  rw [isFinalLockWrite, isFinalLockWrite, relocate_find?]
  cases g.find? k <;> rfl

@[simp] theorem relocate_markFinalLockWrite (k : Key) :
    (g.relocate ρ).markFinalLockWrite k = (g.markFinalLockWrite k).relocate ρ :=
  relocate_modifyNode ρ g k _ fun _ => rfl

/-- The same lock reads could see an acquisition instead. -/
@[simp] theorem relocate_alternativeLockReads (write : Key) :
    (g.relocate ρ).alternativeLockReads write = g.alternativeLockReads write := by
  simp only [alternativeLockReads, relocate_locationOf, relocate_chain, relocate_isFinalLockWrite,
    relocate_splitBefore]
  exact relocate_concurrentReaders ρ g _ _ _ fun _ => rfl

@[simp] theorem relocate_foldReleases (released : List Int) (ks : List Key) :
    (g.relocate ρ).foldReleases released ks = g.foldReleases released ks := by
  induction ks generalizing released with
  | nil => rfl
  | cons k older ih => simp only [foldReleases, relocate_isFinalLockWrite, relocate_kindOf?, ih]

/-- A lock read could see the same older writes to its lock. -/
@[simp] theorem relocate_alternativeLockWrites (read : Key) :
    (g.relocate ρ).alternativeLockWrites read = g.alternativeLockWrites read := by
  simp only [alternativeLockWrites, relocate_locationOf, relocate_chain, relocate_splitBefore,
    relocate_foldReleases]

/-! ### Changing the past -/

/-- Giving a read its source commutes with renaming. -/
@[simp] theorem relocate_setReadsFrom (read write : Key) :
    (g.relocate ρ).setReadsFrom read write = (g.setReadsFrom read write).relocate ρ :=
  relocate_link ρ g write read .readsFrom

/-- So does giving it another one, and it fails for the same reads. -/
theorem relocate_changeReadsFrom (read write : Key) :
    (g.relocate ρ).changeReadsFrom read write =
      (g.changeReadsFrom read write).map (relocate ρ) := by
  have hsources : (((g.relocate ρ).find? read).map (·.predecessors .readsFrom)).getD [] =
      ((g.find? read).map (·.predecessors .readsFrom)).getD [] := by
    rw [relocate_find?]
    cases g.find? read <;> rfl
  unfold changeReadsFrom
  rw [hsources]
  split
  · rename_i source _
    rw [relocate_node]
    cases g.node source with
    | error e => rfl
    | ok prev => simp [bind, Except.bind, Except.map, pure, Except.pure]
  · rfl

/-- A write joins the chain of its renamed location. -/
@[simp] theorem relocate_trackCoherency (write : Key) :
    (g.relocate ρ).trackCoherency write = (g.trackCoherency write).relocate ρ := by
  have hloc : (((g.relocate ρ).find? write).map (·.location)).getD .none =
      ρ (((g.find? write).map (·.location)).getD .none) := relocate_locationOf ρ g write
  simp only [trackCoherency, hloc, relocate_chain, relocate_setChain, relocate_link]
  exact (apply_ite (relocate ρ) _ _ _).symm

/-- Edges along a chain are taken away by keys alone. -/
@[simp] theorem relocate_unlinkChain (ks : List Key) :
    (g.relocate ρ).unlinkChain ks = (g.unlinkChain ks).relocate ρ := by
  induction ks generalizing g with
  | nil => rfl
  | cons a ks ih =>
    cases ks with
    | nil => rfl
    | cons b more => rw [unlinkChain, unlinkChain, relocate_unlink, ih]

/-- They are put back in the same way. -/
@[simp] theorem relocate_linkChain (ks : List Key) :
    (g.relocate ρ).linkChain ks = (g.linkChain ks).relocate ρ := by
  induction ks generalizing g with
  | nil => rfl
  | cons a ks ih =>
    cases ks with
    | nil => rfl
    | cons b more => rw [linkChain, linkChain, relocate_link, ih]

/-- Moving a write within its chain commutes with renaming. -/
theorem relocate_swapCoherency (a b : Key) :
    (g.relocate ρ).swapCoherency a b = (g.swapCoherency a b).map (relocate ρ) := by
  have hloc : ∀ k, (((g.relocate ρ).find? k).map (·.location)).getD .none =
      ρ (((g.find? k).map (·.location)).getD .none) := relocate_locationOf ρ g
  simp only [swapCoherency, hloc, relocate_chain, relocate_unlinkChain, relocate_linkChain,
    relocate_setChain, ne_eq, Renaming.apply_inj]
  split
  · rfl
  · split <;> rfl

/-! ### Taking events out -/

@[simp] theorem relocate_keptTask (removed ks : List Key) :
    (g.relocate ρ).keptTask removed ks = g.keptTask removed ks := by
  simp only [keptTask, relocate_isLabel]

/-- The locations that a removal touches are renamed; none is merged with another. -/
theorem relocate_touchedLocations (removed : List Key) :
    (g.relocate ρ).touchedLocations removed = (g.touchedLocations removed).map ρ := by
  rw [touchedLocations, touchedLocations, ← Renaming.eraseDups, relocate_events, List.filter_map,
    List.map_map, List.map_map]
  rfl

/-- So are those whose chains lose a write. -/
theorem relocate_prunedLocations (removed : List Key) :
    (g.relocate ρ).prunedLocations removed = (g.prunedLocations removed).map ρ := by
  have hfilter : (g.relocate ρ).events.filter (fun n => removed.contains n.key &&
      n.event.hasLocation) =
      (g.events.filter fun n => removed.contains n.key && n.event.hasLocation).map
      (·.relocate ρ) := by
    rw [relocate_events, List.filter_map]
    congr 1
    exact List.filter_congr fun n _ => by simp
  rw [prunedLocations, prunedLocations, ← Renaming.eraseDups, hfilter, List.map_map, List.map_map]
  rfl

theorem relocate_keptTask_eq (removed : List Key) :
    (g.relocate ρ).keptTask removed = g.keptTask removed :=
  funext fun ks => relocate_keptTask ρ g removed ks

/-- Nodes, tasks and the total order lose the same events. -/
@[simp] theorem relocate_without (removed : List Key) :
    (g.relocate ρ).without removed = (g.without removed).relocate ρ := by
  unfold without
  rw [relocate_keptTask_eq, relocate_prunedLocations]
  refine eq_of_views ?_ rfl rfl ?_ rfl
  · simp only [relocate_nodes, List.filter_map, List.map_map]
    rfl
  · simp only [relocate, List.map_map]
    refine List.map_congr_left fun c _ => ?_
    simp only [Function.comp_apply, Renaming.contains]
    split <;> rfl

@[simp] theorem relocate_stripped (removed : List Key) :
    (g.relocate ρ).stripped removed = (g.stripped removed).relocate ρ := by
  unfold stripped stale
  rw [relocate_keptTask_eq, relocate_tasks, relocate_without, relocate_without]
  rfl

/-- A chain that has lost a write is linked anew at its renamed location. -/
theorem relocate_relinkAt (g' : Graph) (l : Location) :
    (g.relocate ρ).relinkAt (g'.relocate ρ) (ρ l) = (g.relinkAt g' l).relocate ρ := by
  simp only [relinkAt, relocate_chain, relocate_unlinkChain, relocate_linkChain]
  exact (apply_ite (relocate ρ) _ _ _).symm

/-- **Taking events out commutes with renaming.** -/
@[simp] theorem relocate_prune (removed : List Key) :
    (g.relocate ρ).prune removed = (g.prune removed).relocate ρ := by
  have hprune : ∀ g : Graph, g.prune removed = if removed.isEmpty then g else
      (g.touchedLocations removed).foldl g.relinkAt (g.stripped removed) := fun _ => rfl
  rw [hprune, hprune, relocate_touchedLocations, List.foldl_map, relocate_stripped]
  split
  · rfl
  · exact relocate_foldl ρ _ _ _ _ fun g' l => relocate_relinkAt ρ g g' l

/-- The same event is the first one at a location without a chain. -/
@[simp] theorem relocate_untracked? (removed : List Key) :
    (g.relocate ρ).untracked? removed = g.untracked? removed := by
  have hfind : (g.relocate ρ).events.find? (fun n =>
        removed.contains n.key && n.event.hasLocation &&
          ((g.relocate ρ).chain? n.location).isNone) =
      (g.events.find? fun n =>
        removed.contains n.key && n.event.hasLocation && (g.chain? n.location).isNone).map
            (·.relocate ρ) := by
    rw [relocate_events, List.find?_map]
    congr 2
    exact funext fun n => by simp
  rw [untracked?, untracked?, hfind, Option.map_map]
  rfl

/-- A removal that is refused is refused for the same reason. -/
@[simp] theorem relocate_takeOut (removed : List Key) :
    (g.relocate ρ).takeOut removed = (g.takeOut removed).map (relocate ρ) := by
  rw [takeOut, takeOut, relocate_untracked?, relocate_prune]
  split <;> rfl

/-- **Cutting a graph back to an event commutes with renaming.** -/
theorem relocate_restrict (k : Key) :
    (g.relocate ρ).restrict k = (g.restrict k).map (relocate ρ) := by
  rw [restrict, restrict, relocate_indexOf?, relocate_order]
  split
  · rfl
  · rw [relocate_takeOut]

/-- **So does the removal of a set of events.** -/
theorem relocate_restrictBySet (removed : List Key) :
    (g.relocate ρ).restrictBySet removed = (g.restrictBySet removed).map (relocate ρ) := by
  simp only [restrictBySet, relocate_indexOf?, relocate_takeOut]
  split <;> rfl

/-! ### Orders -/

/-- The nodes at the other ends of edges are renamed. -/
@[simp] theorem relocate_reachable? (k : Key) :
    (g.relocate ρ).reachable? k = (g.reachable? k).map (·.relocate ρ) := by
  simp only [reachable?, relocate_order, relocate_isLabel, relocate_lastOf, relocate_find?]
  split <;> rfl

@[simp] theorem relocate_pending : (g.relocate ρ).pending = g.pending := by
  rw [pending, pending, relocate_events, List.map_map]
  rfl

/-- Keys are resolved to renamed nodes, and the same key is the first without one. -/
theorem relocate_resolveAll (source : Key) (ks : List Key) :
    (g.relocate ρ).resolveAll source ks =
      (g.resolveAll source ks).map (List.map (·.relocate ρ)) := by
  induction ks with
  | nil => rfl
  | cons k ks ih =>
    rw [resolveAll, resolveAll, relocate_reachable?]
    cases g.reachable? k with
    | none => rfl
    | some n =>
      rw [Option.map_some]
      dsimp only
      rw [ih]
      cases g.resolveAll source ks <;> rfl

/-- A walk visits the same nodes, renamed, and complains of the same. -/
theorem relocate_walk (fuel : Nat) (p : Pending) (queue : List Node) :
    (g.relocate ρ).walk fuel p (queue.map (·.relocate ρ)) =
      ((g.walk fuel p queue).1.map (·.relocate ρ), (g.walk fuel p queue).2) := by
  induction fuel generalizing p queue with
  | zero => rfl
  | succ fuel ih =>
    cases queue with
    | nil => rfl
    | cons n queue =>
      have htargets : targets (n.relocate ρ) = targets n := rfl
      rw [List.map_cons, walk, walk, htargets, Node.relocate_key]
      generalize release p (targets n) = released
      obtain ⟨p', free⟩ := released
      dsimp only
      rw [relocate_resolveAll]
      cases g.resolveAll n.key (Key.sort free) with
      | error e => rfl
      | ok next =>
        simp only [Except.map]
        rw [← List.map_append, ih]
        rfl

theorem relocate_visit : (g.relocate ρ).visit = (g.visit.1.map (·.relocate ρ), g.visit.2) := by
  have hfirst : (g.relocate ρ).order.head?.bind (g.relocate ρ).find? =
      (g.order.head?.bind g.find?).map (·.relocate ρ) := by
    rw [relocate_order]
    cases g.order.head? with
    | none => rfl
    | some k => exact relocate_find? ρ g k
  have hlength : (g.relocate ρ).nodes.length = g.nodes.length := List.length_map _
  unfold visit
  rw [hfirst, hlength, relocate_pending]
  cases g.order.head?.bind g.find? with
  | none => rfl
  | some first =>
    have hwalk := relocate_walk ρ g (g.nodes.length + 2) g.pending [first]
    rw [List.map_singleton] at hwalk
    dsimp only [Option.map_some]
    rw [hwalk]
    generalize g.walk (g.nodes.length + 2) g.pending [first] = walked
    obtain ⟨visited, e⟩ := walked
    have hreached : ((visited.map (·.relocate ρ)).filter isEvent).length =
        (visited.filter isEvent).length := by
      rw [List.filter_map, List.length_map]
      rfl
    dsimp only
    rw [hreached]
    cases e <;> rfl

/-- **The topological order does not depend on locations**: it is the renamed one. -/
theorem relocate_topologicalOrder :
    (g.relocate ρ).topologicalOrder = g.topologicalOrder.map (List.map (·.relocate ρ)) := by
  unfold topologicalOrder
  rw [relocate_visit]
  generalize g.visit = visit
  obtain ⟨visited, e⟩ := visit
  cases e with
  | some e => rfl
  | none =>
    simp only [Except.map]
    rw [List.filter_map]
    rfl

/-! ### Clocks -/

/-- The new clock of a node comes from the clocks of its causes. -/
theorem clockFrom_relocate (clocks : Clocks) (n : Node) :
    clockFrom clocks (n.relocate ρ) = clockFrom clocks n := by
  rfl

theorem recomputeFrom_respects (clocks : Clocks) (ns : List Node) :
    EditRespects ρ id (recomputeFrom clocks ns) (recomputeFrom clocks (ns.map (·.relocate ρ))) := by
  induction ns generalizing clocks with
  | nil => exact Respects.pure _
  | cons n more ih =>
    rw [List.map_cons, recomputeFrom, recomputeFrom, clockFrom_relocate]
    split
    · exact Respects.throw _
    · exact ih clocks
    · refine (Respects.of_modify fun g => ?_).bind fun _ => ih _
      exact relocate_modifyNode ρ g n.key _ fun _ => rfl

/-- **Clocks are computed anew in the same way.** -/
theorem recomputeClocks_respects : EditRespects ρ id recomputeClocks recomputeClocks := by
  refine Respects.get.bind fun g => ?_
  rw [relocate_visit]
  generalize g.visit = visit
  obtain ⟨visited, e⟩ := visit
  refine (recomputeFrom_respects ρ [] visited).bind fun _ => ?_
  cases e with
  | some e => exact Respects.throw _
  | none => exact Respects.pure _

/-! ### Consistency -/

/-- What a check has found so far, with all locations renamed. -/
def Verdict.relocate (ρ : Renaming) : Verdict → Verdict
  | .consistent g => .consistent (g.relocate ρ)
  | .inconsistent => .inconsistent

/-- The second half of an atomic update is found at the renamed location. -/
theorem relocate_pairedWrite? (n : Node) :
    (g.relocate ρ).pairedWrite? (n.relocate ρ) = (g.pairedWrite? n).map (·.relocate ρ) := by
  unfold pairedWrite?
  rw [List.map_findSome?]
  congr 1
  funext k
  rw [Function.comp_apply, relocate_node?]
  cases g.node? k with
  | none => rfl
  | some w => exact (apply_ite (Option.map (Node.relocate ρ)) _ (some w) none).symm

/-- A pair is torn in one graph just when it is torn in the other. -/
@[simp] theorem relocate_isTorn (next : Option Key) (r : Node) :
    (g.relocate ρ).isTorn next (r.relocate ρ) = g.isTorn next r := by
  rw [isTorn, isTorn, relocate_pairedWrite?, Node.relocate_kind]
  cases g.pairedWrite? r <;> rfl

/-- The readers of a write are checked in the same way, and the same edges are added. -/
theorem checkReaders_relocate (l : Location) (next : Option Key) (count : Nat) (ks : List Key) :
    checkReaders (ρ l) next count ks (g.relocate ρ) =
      (checkReaders l next count ks g).map fun r => (r.1, r.2.relocate ρ) := by
  induction ks generalizing g count with
  | nil => rfl
  | cons k more ih =>
    rw [checkReaders_cons, checkReaders_cons, relocate_node]
    cases g.node k with
    | error e => rfl
    | ok r =>
      simp only [Except.map, Except.bind, Node.relocate_location, Node.relocate_kind,
        Node.relocate_key, ne_eq, Renaming.apply_inj, relocate_isTorn]
      by_cases hloc : r.location = l
      · simp only [hloc, not_true_eq_false, if_false]
        by_cases htorn : g.isTorn next r = true
        · simp only [htorn, if_true]
          rfl
        · simp only [htorn]
          cases next with
          | none => exact ih g _
          | some w =>
            dsimp only
            rw [relocate_link]
            exact ih _ _
      · simp only [hloc, not_false_eq_true, if_true]
        exact ih g count

/-- A chain is checked like that of the renamed location. -/
theorem checkChain_relocate (l : Location) (ks : List Key) :
    checkChain (ρ l) ks (g.relocate ρ) = (checkChain l ks g).map (Verdict.relocate ρ) := by
  induction ks generalizing g with
  | nil => rfl
  | cons w more ih =>
    have hreaders : (((g.relocate ρ).find? w).map (·.successors .readsFrom)).getD [] =
        ((g.find? w).map (·.successors .readsFrom)).getD [] := by
      rw [relocate_find?]
      cases g.find? w <;> rfl
    rw [checkChain, checkChain, hreaders, checkReaders_relocate]
    cases checkReaders l more.head? 0 (((g.find? w).map (·.successors .readsFrom)).getD []) g with
    | error e => rfl
    | ok r =>
      obtain ⟨count, verdict⟩ := r
      cases verdict with
      | inconsistent => rfl
      | consistent g' =>
        simp only [Except.map, bind, Except.bind, Verdict.relocate]
        split
        · rfl
        · exact ih g'

/-- Chains are checked one after the other, in the same order. -/
theorem checkChains_relocate (cs : List (Location × List Key)) :
    checkChains (cs.map fun c => (ρ c.1, c.2)) (g.relocate ρ) =
      (checkChains cs g).map (Verdict.relocate ρ) := by
  induction cs generalizing g with
  | nil => rfl
  | cons c more ih =>
    obtain ⟨l, ks⟩ := c
    rw [List.map_cons, checkChains, checkChains, checkChain_relocate]
    cases checkChain l ks g with
    | error e => rfl
    | ok verdict =>
      cases verdict with
      | inconsistent => rfl
      | consistent g' => exact ih g'

/-- **Consistency does not depend on the numbers of locations**, and neither does the order that
explains it. -/
theorem relocate_consistentOrder :
    (g.relocate ρ).consistentOrder =
      g.consistentOrder.map (Option.map (List.map (·.relocate ρ))) := by
  have hchains : (g.copy.relocate ρ).chains = g.copy.chains.map fun c => (ρ c.1, c.2) := rfl
  simp only [consistentOrder, relocate_copy, hchains, checkChains_relocate]
  cases checkChains g.copy.chains g.copy with
  | error e => rfl
  | ok verdict =>
    cases verdict with
    | inconsistent => rfl
    | consistent c =>
      simp only [Except.map, bind, Except.bind, Verdict.relocate, relocate_topologicalOrder]
      cases c.topologicalOrder with
      | ok sorted =>
        have hpairs :=
          placePairs_map (f := (·.relocate ρ)) (fun _ => rfl) (fun _ => rfl) sorted [] sorted
        simp only [List.map_nil] at hpairs
        simp only [hpairs]
        rfl
      | error e => cases e <;> rfl

end Interleaving.Graph
