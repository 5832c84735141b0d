import Interleaving.Proofs.Graph.Canonical

/-!
# Clocks computed anew

Clocks are computed from program order and the other edges that order time, in the order in which
the nodes are walked. Labels get none, so the computation is that on the graph without labels
(`Interleaving.Graph.Arranged.recomputeClocks_unlabelled`). **Computing the clocks of a numbered
graph anew makes them decide what happens before**, whatever they were, unless its edges run in a
cycle.
-/

namespace Interleaving.Graph

variable {g h : Graph} {a b k : Key} {r : Relation} {t n : Nat}

/-! ### Clocks and labels -/

/-- Labels are passed over. -/
theorem recomputeFrom_filter {clocks : Clocks} {ns : List Node}
    (hlabel : ∀ m ∈ ns, isEvent m = false → m.key.isInit = false) :
    recomputeFrom clocks ns = recomputeFrom clocks (ns.filter isEvent) := by
  induction ns generalizing clocks with
  | nil => rfl
  | cons m ns ih =>
    have ih := fun {c} => @ih c fun m hm => hlabel m (List.mem_cons_of_mem _ hm)
    cases hm : isEvent m with
    | true =>
      rw [List.filter_cons_of_pos hm, recomputeFrom, recomputeFrom]
      simp only [ih]
    | false =>
      have hinit := hlabel m List.mem_cons_self hm
      have hblock : m.kind.isBlocking = true := by simpa [isEvent] using hm
      have hnone : clockFrom clocks m = .ok none := by
        unfold clockFrom
        rw [if_neg (by simp [hinit]), if_pos hblock]
      rw [List.filter_cons_of_neg (by simp [hm]), recomputeFrom, hnone]
      exact ih

/-- Edges to labels play no part in the clocks. -/
theorem recomputeFrom_map (g : Graph) (clocks : Clocks) (ns : List Node) :
    recomputeFrom clocks (ns.map g.withoutLabels) = recomputeFrom clocks ns := by
  induction ns generalizing clocks with
  | nil => rfl
  | cons m ns ih =>
    have hclock : clockFrom clocks (g.withoutLabels m) = clockFrom clocks m := rfl
    rw [List.map_cons, recomputeFrom, recomputeFrom, hclock]
    simp only [ih]
    rfl

/-- The outcome of an edit with the labels taken off the graph it ends in. -/
def unlabelledResult {α : Type} : EStateM.Result Error Graph α → EStateM.Result Error Graph α
  | .ok x g => .ok x g.unlabelled
  | .error e g => .error e g.unlabelled

theorem unlabelled_setClock (g : Graph) (k : Key) (c : Clock) :
    (g.modifyNode k fun n => { n with clock := c }).unlabelled =
      g.unlabelled.modifyNode k fun n => { n with clock := c } := by
  have hcomp : (fun m : Node => g.order.contains m.key) ∘
      (fun m => if m.key = k then { m with clock := c } else m) =
        fun m : Node => g.order.contains m.key := by
    funext m
    rw [Function.comp_apply]
    split <;> rfl
  unfold unlabelled modifyNode
  dsimp only
  congr 1
  rw [List.filter_map, hcomp, List.map_map, List.map_map]
  refine List.map_congr_left fun m _ => ?_
  rw [Function.comp_apply, Function.comp_apply]
  split
  · rename_i hm
    rw [if_pos (show (g.withoutLabels m).key = k from hm)]
    rfl
  · rename_i hm
    rw [if_neg (show ¬(g.withoutLabels m).key = k from hm)]
    rfl

theorem recomputeFrom_unlabelled (clocks : Clocks) (ns : List Node) (g : Graph) :
    recomputeFrom clocks ns g.unlabelled = unlabelledResult (recomputeFrom clocks ns g) := by
  induction ns generalizing clocks g with
  | nil => rfl
  | cons m ns ih =>
    rw [recomputeFrom]
    cases clockFrom clocks m with
    | error e => rfl
    | ok c =>
      cases c with
      | none => exact ih clocks g
      | some c =>
        have ih := ih (clocks ++ [(m.key, c)]) (g.modifyNode m.key fun n => { n with clock := c })
        rw [unlabelled_setClock] at ih
        exact ih

theorem clockOf_unlabelled (hk : k ∈ g.order) : g.unlabelled.clockOf k = g.clockOf k := by
  unfold clockOf
  rw [find?_unlabelled, if_pos hk, Option.map_map]
  rfl

/-- Nodes of the table are known by their keys. -/
theorem eq_of_map_key {ns ms : List Node} (hns : ∀ n ∈ ns, g.find? n.key = some n)
    (hms : ∀ m ∈ ms, g.find? m.key = some m) (heq : ns.map (·.key) = ms.map (·.key)) : ns = ms := by
  have hself : ∀ {l : List Node}, (∀ n ∈ l, g.find? n.key = some n) →
      (l.map (·.key)).map g.find? = l.map some :=
    fun hl => by rw [List.map_map]; exact List.map_congr_left hl
  have hsome : ns.map some = ms.map some := by rw [← hself hns, ← hself hms, heq]
  exact List.map_injective_iff.mpr (Option.some_injective _) hsome

namespace Arranged

variable (hg : g.Arranged)
include hg

/-- **The clocks of a graph are computed as if it had no labels.** -/
theorem recomputeClocks_unlabelled :
    Graph.recomputeClocks g.unlabelled = unlabelledResult (Graph.recomputeClocks g) := by
  obtain ⟨W, W', c, hvisit, hvisit', htable, hv, hkeys, -⟩ :=
    (hg.sameEvents_unlabelled (.refl g)).visit hg hg.formed_unlabelled hg.mirrored_unlabelled
      (isLabel_unlabelled hg)
  have hinit : ∀ m ∈ W, isEvent m = false → m.key.isInit = false := by
    intro m hm hlabel
    have hfind := htable m hm
    refine Bool.eq_false_iff.mpr fun hinit => ?_
    have hkey : m.key = .init := hg.named (has_of_find? hfind) hinit
    rw [(hg.isEvent_iff hfind).mpr (hkey ▸ hg.init_mem)] at hlabel
    cases hlabel
  have hinit' : ∀ m ∈ W', isEvent m = false → m.key.isInit = false := by
    intro m hm hlabel
    have hfind := hv.table m hm
    rw [(hg.formed_unlabelled.isEvent_iff hfind).mpr
      (hg.has_unlabelled.mp (has_of_find? hfind))] at hlabel
    cases hlabel
  have hevents : W'.filter isEvent = (W.filter isEvent).map g.withoutLabels := by
    refine eq_of_map_key (g := g.unlabelled)
      (fun m hm => hv.table m (List.mem_of_mem_filter hm)) ?_ ?_
    · intro m hm
      obtain ⟨m', hm', rfl⟩ := List.mem_map.mp hm
      obtain ⟨hmem, hevent⟩ := List.mem_filter.mp hm'
      have hfind := htable m' hmem
      show g.unlabelled.find? m'.key = _
      rw [find?_unlabelled, if_pos ((hg.isEvent_iff hfind).mp hevent), hfind]
      rfl
    · rw [List.map_map]
      exact hkeys.symm
  have hrun : recomputeFrom [] W' g.unlabelled = unlabelledResult (recomputeFrom [] W g) := by
    rw [recomputeFrom_filter hinit', hevents, recomputeFrom_map, ← recomputeFrom_filter hinit,
      recomputeFrom_unlabelled]
  simp only [Graph.recomputeClocks, bind, EStateM.bind, get, getThe, MonadStateOf.get, EStateM.get,
    hvisit, hvisit', hrun]
  cases recomputeFrom [] W g with
  | error e g' => rfl
  | ok x g' => cases c <;> rfl

/-- The number of all events bounds the places of events. -/
theorem place_lt {i : Nat} (hk : .place t i ∈ g.order) : i + 1 < g.order.length := by
  obtain ⟨u, hmem⟩ := (hg.has_iff.mp (hg.has hk)).resolve_left (Key.place_ne_init t i)
  obtain ⟨m, hkeys⟩ := hg.tasks u
  obtain ⟨j, hlt, heq⟩ := mem_places.mp (hkeys ▸ hmem)
  obtain ⟨rfl, rfl⟩ := Key.place_inj.mp heq
  -- what stands before an event in its task is no label, since a label is last
  have hsub : ∀ k ∈ Key.init :: places t (i + 1), k ∈ g.order := by
    intro k hk'
    rcases List.mem_cons.mp hk' with rfl | hk'
    · exact hg.init_mem
    · obtain ⟨j, hj, rfl⟩ := mem_places.mp hk'
      have hhas : g.Has (.place t j) :=
        hg.has_iff.mpr (Or.inr ⟨t, hkeys ▸ mem_places.mpr ⟨j, by omega, rfl⟩⟩)
      refine (hg.mem_or_label hhas).resolve_right fun hlabel => ?_
      have hlength := congrArg List.length (hkeys.symm.trans (hg.label_last hlabel))
      rw [length_places, length_places] at hlength
      obtain rfl : j = i := by omega
      rw [hg.not_label hk] at hlabel
      cases hlabel
  have hnodup : (Key.init :: places t (i + 1)).Nodup := by
    refine List.nodup_cons.mpr ⟨fun hinit => ?_, ?_⟩
    · obtain ⟨j, -, heq⟩ := mem_places.mp hinit
      exact Key.init_ne_place t j heq
    · exact List.nodup_range.map fun j j' heq => (Key.place_inj.mp heq).2
  have hle := hnodup.length_le_of_subset hsub
  rw [List.length_cons, length_places] at hle
  omega

/-- Labels are in nobody's past. -/
theorem past_unlabelled (hb : b ∈ g.order) : g.unlabelled.Past a b ↔ g.Past a b := by
  constructor
  · exact Relation.TransGen.mono (fun a b ⟨r, hr, hin⟩ => ⟨r, hr, (in_unlabelled.mp hin).2⟩) _ _
  · intro hp
    induction hp with
    | single hab =>
      obtain ⟨r, hr, hin⟩ := hab
      exact .single ⟨r, hr, in_unlabelled.mpr ⟨hb, hin⟩⟩
    | tail _ hbc ih =>
      obtain ⟨r, hr, hin⟩ := hbc
      exact .tail (ih (hg.source_mem hin)) ⟨r, hr, in_unlabelled.mpr ⟨hb, hin⟩⟩

end Arranged

/-! ### Exact clocks -/

theorem Reclocked.past_iff {g' : Graph} (h : Reclocked g g') : g'.Past a b ↔ g.Past a b := by
  unfold Past
  rw [h.earlier_eq]

theorem Reclocked.dense {g' : Graph} (h : Reclocked g g') (hd : g.Dense) : g'.Dense where
  key := by
    rw [h.order]
    exact hd.key
  source_mem := by
    intro a b
    rw [h.order, h.earlier_iff]
    exact hd.source_mem
  programOrder := by
    intro t i a
    rw [h.order, h.in_iff]
    exact hd.programOrder
  no_cause := by
    intro a
    rw [h.earlier_iff]
    exact hd.no_cause
  acyclic := by
    intro a
    rw [h.past_iff]
    exact hd.acyclic a

namespace Numbered

variable (hg : g.Numbered)
include hg

theorem bare_unlabelled : g.unlabelled.Bare where
  tidy := hg.tidy_unlabelled
  mirrored := hg.mirrored_unlabelled
  nodup := hg.nodup
  first := hg.first
  has_iff := hg.has_unlabelled
  label := isLabel_unlabelled hg.toArranged
  key := fun hk => hg.key (hg.has hk)
  programOrder := fun hk => by
    rw [in_unlabelled, hg.programOrder (hg.has hk)]
    exact and_iff_right hk
  no_cause := fun hin => hg.no_cause (in_unlabelled.mp hin).2

theorem dense (hacyclic : g.Acyclic) (hsize : g.order.length < 2 ^ 63) : g.Dense where
  key := by
    intro k hk
    refine (hg.key (hg.has hk)).imp_right ?_
    rintro ⟨t, i, rfl⟩
    have hlt := hg.place_lt hk
    exact ⟨t, i, rfl, by omega⟩
  source_mem := fun _ ⟨_, _, hin⟩ => hg.source_mem hin
  programOrder := fun hk => hg.programOrder (hg.has hk)
  no_cause := fun ⟨_, _, hin⟩ => hg.no_cause hin
  acyclic := fun a ha => hacyclic a ha.path

/-- **Without a cycle all clocks can be computed anew**, and they tell the past. -/
theorem recomputeClocks (hacyclic : g.Acyclic) :
    ∃ g', Graph.recomputeClocks g = .ok () g' ∧ Reclocked g g' ∧
      (g.order.length < 2 ^ 63 → g'.Timed) := by
  obtain ⟨u, hu, htimed⟩ := hg.bare_unlabelled.recomputeClocks (hg.ranked_unlabelled hacyclic)
  have hru := reclocked_of_recomputeClocks hu
  rw [hg.recomputeClocks_unlabelled] at hu
  rcases hrun : Graph.recomputeClocks g with ⟨x, g'⟩ | ⟨e, g'⟩
  · rw [hrun] at hu
    cases hu
    have hr := reclocked_of_recomputeClocks hrun
    refine ⟨g', rfl, hr, fun hsize k hk => ?_⟩
    have htells := htimed (fun t i hk => by have hlt := hg.place_lt hk; omega) k hk
    rw [hru.tells_iff, clockOf_unlabelled hk] at htells
    rw [hr.tells_iff]
    refine ⟨htells.nonneg, fun t i => ?_⟩
    rw [htells.count, hg.past_unlabelled (hr.order ▸ hk)]
  · rw [hrun] at hu
    cases hu

/-- **With a cycle they cannot**, and the complaint says so. -/
theorem recomputeClocks_cycle (hcycle : ¬g.Acyclic) :
    ∃ i j g', Graph.recomputeClocks g = .error (.cycle i j) g' := by
  have hcases := hg.bare_unlabelled.recomputeClocks_cases
  rw [hg.recomputeClocks_unlabelled] at hcases
  rcases hrun : Graph.recomputeClocks g with ⟨x, g'⟩ | ⟨e, g'⟩
  · obtain ⟨W, hvisit⟩ := visit_of_recomputeClocks hrun
    obtain ⟨i, j, herror⟩ := (hg.topologicalOrder_cases.resolve_left fun ⟨ns, _, hsorted⟩ =>
      hcycle (hg.acyclic_of_sorted hsorted)).1
    rw [topologicalOrder, hvisit] at herror
    cases herror
  · rw [hrun] at hcases
    rcases hcases with ⟨u, hu⟩ | ⟨i, j, u, hu⟩
    · cases hu
    · obtain rfl : e = .cycle i j := (EStateM.Result.error.inj hu).1
      exact ⟨i, j, g', rfl⟩

end Numbered

/-- A clock that tells the past counts it. -/
theorem Tells.count_eq_ncard {c : Clock} (h : g.Tells b c) (hd : g.Dense)
    (hb : b ∈ g.order) (t : Nat) :
    c.count t = ({k | k ∈ g.order ∧ k.task = t ∧ (k = b ∨ g.Past k b)}.ncard : Int) := by
  obtain ⟨n, hn⟩ := Int.eq_ofNat_of_zero_le (h.nonneg t)
  have hset : {k | k ∈ g.order ∧ k.task = t ∧ (k = b ∨ g.Past k b)} =
      (Key.place t) '' {i | i < n} := by
    ext k
    have hknown : ∀ i : Nat, i < n ↔ .place t i = b ∨ g.Past (.place t i) b := by
      intro i
      rw [← h.count, hn, Int.ofNat_lt]
    constructor
    · rintro ⟨hk, htask, hpast⟩
      rcases hd.key hk with rfl | ⟨u, i, rfl, -⟩
      · exact absurd htask (by simp [Key.init])
      · obtain rfl : u = t := Int.ofNat_inj.mp htask
        exact ⟨i, (hknown i).mpr hpast, rfl⟩
    · rintro ⟨i, hi, rfl⟩
      have hpast := (hknown i).mp hi
      refine ⟨?_, rfl, hpast⟩
      rcases hpast with rfl | hpast
      · exact hb
      · exact hd.past_mem hb hpast
  have hinj : Function.Injective (Key.place t) := fun i j heq => (Key.place_inj.mp heq).2
  rw [hset, Set.ncard_image_of_injective _ hinj, hn]
  have hcard : {i | i < n}.ncard = n := by
    rw [show {i | i < n} = Set.Iio n from rfl, ← Finset.coe_Iio, Set.ncard_coe_finset, Nat.card_Iio]
  rw [hcard]

/-- **Clocks computed anew decide what happens before.** Without a cycle there is no complaint,
nothing but the clocks is changed, and then one event is before another one by their clocks just
when a path of edges other than coherency leads from it there; a clock counts the events of every
task that are the event itself or from which such a path leads to it. With a cycle the complaint
says so. The number of events is a machine word, as that of all lists is. -/
theorem recomputeClocks_exact (hg : g.Numbered) (hsize : g.order.length < 2 ^ 63) :
    (g.Acyclic → ∃ g', recomputeClocks g = .ok () g' ∧ Reclocked g g' ∧ ∀ a ∈ g.order,
      ∀ b ∈ g.order, (g'.happensBefore a b = true ↔ g.Past a b) ∧
      ∀ t : Nat, (g'.clockOf b).count t =
        ({k | k ∈ g.order ∧ k.task = t ∧ (k = b ∨ g.Past k b)}.ncard : Int)) ∧
    (¬g.Acyclic → ∃ i j g', recomputeClocks g = .error (.cycle i j) g') := by
  refine ⟨fun hacyclic => ?_, hg.recomputeClocks_cycle⟩
  obtain ⟨g', hrun, hr, htimed⟩ := hg.recomputeClocks hacyclic
  have hd := hg.dense hacyclic hsize
  refine ⟨g', hrun, hr, fun a ha b hb => ⟨?_, fun t => ?_⟩⟩
  · rw [← hr.past_iff]
    refine happensBefore_iff (hr.dense hd) (htimed hsize) (fun k hk => ?_) (hr.order ▸ ha)
      (hr.order ▸ hb)
    exact hr.has_iff.mpr (hg.has (hr.order ▸ hk))
  · exact (hr.tells_iff.mp (htimed hsize b (hr.order ▸ hb))).count_eq_ncard hd hb t

/-- A read that sees a write of another task comes after it, whatever the clocks were. -/
theorem happensBefore_observedGraph : observedGraph.Numbered ∧ observedGraph.order.length < 2 ^ 63 ∧
    ∃ g', recomputeClocks observedGraph = .ok () g' ∧
      g'.happensBefore (.place 0 0) (.place 1 0) = true ∧
      g'.happensBefore (.place 1 0) (.place 0 0) = false := by
  have hg := (regular_of_edits edits_observedGraph).numbered
  have hread : observedGraph.Past (.place 0 0) (.place 1 0) :=
    .single ⟨.readsFrom, rfl, _, rfl, by decide⟩
  obtain ⟨g', hrun, -, hbefore⟩ := (recomputeClocks_exact hg (by decide)).1 acyclic_observedGraph
  refine ⟨hg, by decide, g', hrun, ((hbefore _ (by decide) _ (by decide)).1).mpr hread, ?_⟩
  refine Bool.eq_false_iff.mpr fun hback => ?_
  have hpast := ((hbefore _ (by decide) _ (by decide)).1).mp hback
  exact acyclic_observedGraph _ (Past.path (hread.trans hpast))

end Interleaving.Graph
