import Interleaving.Graph.Consistency
import Interleaving.Proofs.Graph.Canonical

/-!
# What it means for graphs to be equal

Two graphs are compared along their topological orders: place by place, the keys must be the same
and so must the edges that start there. The order is canonical, so that for graphs without cycles
**this is the question whether they have the same keys with the same edges**. The kinds of events
are not looked at: graphs that have an event of another kind under the same key are taken for equal.

A copy leaves labels out, together with the edges to them. So it is equal to the original as long as
no task is blocked.
-/

namespace Interleaving

namespace Graph

variable {g h : Graph} {a b k : Key} {r : Relation} {t i : Nat} {m n : Node} {ns ms : List Node}

/-! ### Comparing along an order -/

theorem sameEdges_iff : m.sameEdges n = true ↔
    ∀ r, Key.sort (m.successors r) = Key.sort (n.successors r) := by
  unfold Node.sameEdges
  rw [List.all_eq_true]
  refine ⟨fun hall r => ?_, fun hall r _ => beq_iff_eq.mpr (hall r)⟩
  have hr : r ∈ Relation.all := by cases r <;> decide
  exact beq_iff_eq.mp (hall r hr)

theorem mem_successors_of_sameEdges (hsame : m.sameEdges n = true) :
    b ∈ m.successors r ↔ b ∈ n.successors r :=
  (Key.perm_of_sort_eq (sameEdges_iff.mp hsame r)).mem_iff

/-- Nodes with the same successors have the same edges. -/
theorem sameEdges_of_out (hg : g.Arranged) (hh : h.Arranged) (hm : g.find? k = some m)
    (hn : h.find? k = some n) (hout : ∀ r b, g.Out r k b ↔ h.Out r k b) : m.sameEdges n = true := by
  refine sameEdges_iff.mpr fun r => Key.sort_eq_of_perm ?_ fun b hb => ?_
  · refine (List.perm_ext_iff_of_nodup (Edges.nodup_keys (hg.tidy.succ hm))
      (Edges.nodup_keys (hh.tidy.succ hn))).mpr ?_
    intro b
    exact (mem_successors hm).trans ((hout r b).trans (mem_successors hn).symm)
  · exact hg.named (hg.tidy.has_target ((mem_successors hm).mp hb))

/-- Nodes that stand at the same place of two orders and agree. -/
def Agreeing (ns ms : List Node) : Prop :=
  List.Forall₂ (fun m n => m.key = n.key ∧ m.sameEdges n = true) ns ms

theorem Agreeing.keys (h : Agreeing ns ms) : ns.map (·.key) = ms.map (·.key) := by
  rw [← List.forall₂_eq_eq_eq, List.forall₂_map_left_iff, List.forall₂_map_right_iff]
  exact List.Forall₂.imp (fun _ _ hsame => hsame.1) h

theorem Agreeing.exists_left (h : Agreeing ns ms) (hn : n ∈ ms) :
    ∃ m ∈ ns, m.key = n.key ∧ m.sameEdges n = true := by
  induction h with
  | nil => cases hn
  | cons hsame _ ih =>
    rcases List.mem_cons.mp hn with rfl | hn
    · exact ⟨_, List.mem_cons_self, hsame⟩
    · obtain ⟨m, hm, hsame⟩ := ih hn
      exact ⟨m, List.mem_cons_of_mem _ hm, hsame⟩

theorem agreeing_of_keys (hkeys : ns.map (·.key) = ms.map (·.key))
    (hsame : ∀ m ∈ ns, ∀ n ∈ ms, m.key = n.key → m.sameEdges n = true) : Agreeing ns ms := by
  rw [← List.forall₂_eq_eq_eq, List.forall₂_map_left_iff, List.forall₂_map_right_iff] at hkeys
  refine List.forall₂_iff_zip.mpr ⟨hkeys.length_eq, fun {m n} hmn => ?_⟩
  obtain ⟨hm, hn⟩ := List.of_mem_zip hmn
  have hkey := List.forall₂_zip hkeys hmn
  exact ⟨hkey, hsame m hm n hn hkey⟩

theorem equal_iff_agreeing : g.equal h = true ↔ g.size = h.size ∧
    ∃ ns ms, g.topologicalOrder = .ok ns ∧ h.topologicalOrder = .ok ms ∧ Agreeing ns ms := by
  unfold equal
  split
  · rename_i ns ms hns hms
    rw [hns, hms]
    simp only [Bool.and_eq_true, beq_iff_eq, List.all_eq_true, Prod.forall]
    refine and_congr_right fun _ =>
      ⟨fun hall => ⟨ns, ms, rfl, rfl,
        List.forall₂_iff_zip.mpr ⟨hall.1, fun {m n} hmn => hall.2 m n hmn⟩⟩, ?_⟩
    rintro ⟨ns', ms', hns', hms', hagree⟩
    cases hns'
    cases hms'
    obtain ⟨hlength, hzip⟩ := List.forall₂_iff_zip.mp hagree
    exact ⟨hlength, fun m n hmn => hzip hmn⟩
  · rename_i hnone
    refine iff_of_false (by simp) ?_
    rintro ⟨-, ns, ms, hns, hms, -⟩
    exact hnone ns ms hns hms

/-- **Graphs without cycles are equal just when they have the same keys with the same edges.** -/
theorem equal_iff (hg : g.Arranged) (hh : h.Arranged) (hga : g.Acyclic) (hha : h.Acyclic) :
    g.equal h = true ↔
      (∀ k, k ∈ g.order ↔ k ∈ h.order) ∧ ∀ k ∈ g.order, ∀ r b, g.Out r k b ↔ h.Out r k b := by
  obtain ⟨ns, hns, hsorted⟩ := hg.topologicalOrder_cases.resolve_right fun hcycle => hcycle.2 hga
  obtain ⟨ms, hms, hsorted'⟩ := hh.topologicalOrder_cases.resolve_right fun hcycle => hcycle.2 hha
  rw [equal_iff_agreeing]
  constructor
  · rintro ⟨-, ns', ms', hns', hms', hagree⟩
    obtain rfl := Except.ok.inj (hns.symm.trans hns')
    obtain rfl := Except.ok.inj (hms.symm.trans hms')
    have hmem : ∀ k, k ∈ g.order ↔ k ∈ h.order := fun k => by
      rw [← hsorted.mem, ← hsorted'.mem, hagree.keys]
    refine ⟨hmem, fun k hk r b => ?_⟩
    obtain ⟨n, hn, rfl⟩ := List.mem_map.mp (hsorted'.mem.mpr ((hmem k).mp hk))
    obtain ⟨m, hm, hkey, hsame⟩ := hagree.exists_left hn
    rw [← mem_successors (hsorted'.table n hn), ← mem_successors_of_sameEdges hsame, ← hkey]
    exact (mem_successors (hsorted.table m hm)).symm
  · rintro ⟨hmem, hout⟩
    have hs : SameEvents g h := by
      refine ⟨hmem, fun {r a b} _ => ?_⟩
      by_cases ha : a ∈ g.order
      · exact hout a ha r b
      · -- edges start at events
        refine iff_of_false (fun hab => ha (hg.source_mem (hg.tidy.known hab))) fun hab => ha ?_
        exact (hmem a).mpr (hh.source_mem (hh.tidy.known hab))
    have hkeys := hg.sortedKeys_eq hh hs
    rw [sortedKeys, sortedKeys, hns, hms] at hkeys
    refine ⟨(hs.size hg.nodup hh.nodup).symm, ns, ms, hns, hms,
      agreeing_of_keys (Except.ok.inj hkeys) fun m hm n hn hkey => ?_⟩
    have hfind := hsorted.table m hm
    exact sameEdges_of_out hg hh hfind (hkey ▸ hsorted'.table n hn)
      fun r b => hout m.key (hsorted.mem.mp (List.mem_map_of_mem hm)) r b

/-! ### Copies -/

/-- All that a walk reaches is in the table. -/
theorem find?_of_walk {p : Pending} {q : List Node} {i : Nat}
    (hqueue : ∀ m ∈ q, g.find? m.key = some m) (hn : n ∈ (g.walk i p q).1) :
    g.find? n.key = some n := by
  induction i generalizing p q with
  | zero => cases hn
  | succ i ih =>
    cases q with
    | nil => cases hn
    | cons m q =>
      have hm := hqueue m List.mem_cons_self
      rw [walk] at hn
      dsimp only at hn
      split at hn
      · rw [List.mem_singleton.mp hn]
        exact hm
      · rename_i next hnext
        rcases List.mem_cons.mp hn with rfl | hn
        · exact hm
        · refine ih (fun m' hm' => ?_) hn
          rcases List.mem_append.mp hm' with hm' | hm'
          · exact hqueue m' (List.mem_cons_of_mem _ hm')
          · exact (table_of_resolveAll hnext).2 m' hm'

theorem find?_of_topologicalOrder (hns : g.topologicalOrder = .ok ns) (hn : n ∈ ns) :
    g.find? n.key = some n := by
  have hvisit : ∀ n ∈ g.visit.1, g.find? n.key = some n := by
    intro n hn
    unfold visit at hn
    split at hn
    · cases hn
    · rename_i first hfirst
      obtain ⟨k, -, hfind⟩ := Option.bind_eq_some_iff.mp hfirst
      refine find?_of_walk (q := [first]) (fun m hm => ?_) (i := g.nodes.length + 2)
        (p := g.pending) ?_
      · rw [List.mem_singleton.mp hm, key_of_find? hfind, hfind]
      · dsimp only at hn
        split at hn <;> exact hn
  unfold topologicalOrder at hns
  split at hns
  · cases hns
  · rename_i W hW
    cases hns
    refine hvisit n ?_
    rw [hW]
    exact List.mem_of_mem_filter hn

namespace Arranged

variable (hg : g.Arranged)
include hg

/-- Without a blocked task there are no labels. -/
theorem isLabel_of_not_blocked (hfree : ∀ task, g.isBlocked task = false) (k : Key) :
    g.isLabel k = false := by
  refine Bool.eq_false_iff.mpr fun hlabel => ?_
  obtain ⟨t, i, rfl⟩ := (hg.key (has_of_isLabel hlabel)).resolve_left (by
    rintro rfl
    rw [hg.not_label hg.init_mem] at hlabel
    cases hlabel)
  have hmem := hg.last_mem (hg.label_last hlabel) (hfree t)
  rw [Key.prior, hg.mem_iff, hlabel] at hmem
  cases hmem.2

/-- **A copy of a graph without labels** has all that the graph has, but nobody waits in it. -/
theorem copy_eq (hfree : ∀ task, g.isBlocked task = false) : g.copy = { g with waiting := [] } := by
  have hlabel := hg.isLabel_of_not_blocked hfree
  have hnone : ∀ ks : List Key, ks.filter g.isLabel = [] := fun ks =>
    List.filter_eq_nil_iff.mpr fun k _ => by rw [hlabel]; exact Bool.false_ne_true
  have hall : ∀ ks : List Key, ks.filter (fun k => !g.isLabel k) = ks := fun ks =>
    List.filter_eq_self.mpr fun k _ => by rw [hlabel]; rfl
  have hcuts : g.cuts = [] := List.flatMap_eq_nil_iff.mpr fun ks _ => by rw [hnone]; rfl
  have hnodes : g.copy.nodes = g.nodes := by
    rw [nodes_copy, hcuts, hnone]
    exact List.filter_eq_self.mpr fun _ _ => rfl
  have htasks : g.copy.tasks = g.tasks := by
    show g.tasks.map _ = g.tasks
    simp only [hall, List.map_id']
  calc g.copy = ⟨g.copy.nodes, g.copy.tasks, g.order, g.chains, []⟩ := rfl
    _ = { g with waiting := [] } := by rw [hnodes, htasks]

/-- A label has nothing but events before it. -/
theorem filter_places (hkeys : g.taskKeys t = places t (i + 1)) :
    (places t i).filter (fun k => !g.isLabel k) = places t i := by
  refine List.filter_eq_self.mpr fun k hk => ?_
  obtain ⟨j, hj, rfl⟩ := mem_places.mp hk
  rw [Bool.not_eq_true', ← Bool.not_eq_true]
  intro hlabel
  have hlength := congrArg List.length (hkeys.symm.trans (hg.label_last hlabel))
  rw [length_places, length_places] at hlength
  omega

/-- The last event of a blocked task loses its edge to the label. -/
theorem not_out_copy
    (hkeys : g.taskKeys t = places t (i + 1)) (hlabel : g.isLabel (.place t i) = true) :
    ¬g.copy.Out .programOrder (.prior t i) (.place t i) := by
  rintro ⟨m, hm, hmem⟩
  have hcut := mem_cuts_of_label hkeys hlabel (hg.filter_places hkeys)
  have hfilter := find?_filter_key (fun k => !(g.tasks.flatten.filter g.isLabel).contains k)
    (g.cuts.foldl cut g).nodes (.prior t i)
  rw [Graph.find?, nodes_copy, hfilter] at hm
  split at hm
  · rw [← Graph.find?, find?_foldl_cut] at hm
    obtain ⟨n, -, rfl⟩ := Option.map_eq_some_iff.mp hm
    have hkept := (List.mem_filter.mp hmem).2
    simp [hcut] at hkept
  · cases hm

end Arranged

/-- **A copy is equal to the graph as long as no task is blocked.** -/
theorem Numbered.copy_equal_iff (hg : g.Numbered) (hacyclic : g.Acyclic) :
    g.copy.equal g = true ↔ ∀ task, g.isBlocked task = false := by
  obtain ⟨ms, hms, hsorted⟩ :=
    hg.topologicalOrder_cases.resolve_right fun hcycle => hcycle.2 hacyclic
  constructor
  · intro heq task
    refine Bool.eq_false_iff.mpr fun hblocked => ?_
    obtain ⟨t, rfl⟩ : ∃ t : Nat, task = t := by
      refine Int.eq_ofNat_of_zero_le (Int.not_lt.mp fun hneg => ?_)
      rw [isBlocked_of_neg hneg] at hblocked
      cases hblocked
    -- the label at the end of the task, and the event before it
    have hlabel : g.isLabel (g.lastOf t) = true := (Bool.and_eq_true_iff.mp hblocked).2
    obtain ⟨n, hkeys⟩ := hg.tasks t
    rw [lastOf_eq hkeys] at hlabel
    obtain ⟨i, rfl⟩ : ∃ i, n = i + 1 := by
      cases n with
      | zero => exact absurd hlabel (by rw [Key.prior, hg.not_label hg.init_mem]; decide)
      | succ i => exact ⟨i, rfl⟩
    have hin : g.In .programOrder (.prior t i) (.place t i) :=
      (hg.programOrder (has_of_isLabel hlabel)).mpr rfl
    obtain ⟨-, ns, ms', hns, hms', hagree⟩ := equal_iff_agreeing.mp heq
    obtain rfl := Except.ok.inj (hms.symm.trans hms')
    obtain ⟨n, hn, hkey⟩ := List.mem_map.mp (hsorted.mem.mpr (hg.source_mem hin))
    obtain ⟨m, hm, hsame⟩ := hagree.exists_left hn
    refine hg.not_out_copy hkeys hlabel ?_
    have hfind := hsorted.table n hn
    have hfind' := find?_of_topologicalOrder hns hm
    rw [hsame.1, hkey] at hfind'
    rw [hkey] at hfind
    rw [← mem_successors hfind', mem_successors_of_sameEdges hsame.2, mem_successors hfind]
    exact hg.mirrored _ _ _ hin
  · intro hfree
    rw [hg.copy_eq hfree]
    have hcopy : ({ g with waiting := [] } : Graph).Arranged :=
      ⟨tidy_of_nodes (g := g) rfl hg.tidy, hg.mirrored, hg.nodup, hg.first, hg.tasks, hg.has_iff,
        hg.mem_iff, hg.label_last, hg.label_end, hg.linked, hg.no_cause⟩
    exact (equal_iff hcopy hg.toArranged hacyclic hacyclic).mpr ⟨fun _ => Iff.rfl,
      fun _ _ _ _ => Iff.rfl⟩

/-- The same keys with the same edges, whatever the order of the lists. -/
def Coincides (g h : Graph) : Prop :=
  (∀ k, k ∈ g.order ↔ k ∈ h.order) ∧ ∀ k ∈ g.order, ∀ r b, g.Out r k b ↔ h.Out r k b

/-- Events of the same kind at every key of the first graph. -/
def KindsAgree (g h : Graph) : Prop := ∀ k ∈ g.order, g.kindOf? k = h.kindOf? k

theorem Coincides.refl (g : Graph) : g.Coincides g := ⟨fun _ => Iff.rfl, fun _ _ _ _ => Iff.rfl⟩

theorem Coincides.symm (hsame : g.Coincides h) : h.Coincides g :=
  ⟨fun k => (hsame.1 k).symm, fun k hk r b => (hsame.2 k ((hsame.1 k).mpr hk) r b).symm⟩

theorem Coincides.trans {i : Graph} (hgh : g.Coincides h) (hhi : h.Coincides i) : g.Coincides i :=
  ⟨fun k => (hgh.1 k).trans (hhi.1 k),
    fun k hk r b => (hgh.2 k hk r b).trans (hhi.2 k ((hgh.1 k).mp hk) r b)⟩

theorem Numbered.equal_iff_coincides (hg : g.Numbered) (hh : h.Numbered) (hga : g.Acyclic)
    (hha : h.Acyclic) : g.equal h = true ↔ g.Coincides h :=
  equal_iff hg.toArranged hh.toArranged hga hha

/-- On numbered graphs without cycles, to be equal is an equivalence relation. -/
theorem equivalence_equal :
    Equivalence (fun g h : { g : Graph // g.Numbered ∧ g.Acyclic } => g.1.equal h.1 = true) := by
  have hequal (g h : { g : Graph // g.Numbered ∧ g.Acyclic }) : g.1.equal h.1 = true ↔
      g.1.Coincides h.1 :=
    g.2.1.equal_iff_coincides h.2.1 g.2.2 h.2.2
  refine ⟨fun g => ?_, fun {g h} hgh => ?_, fun {g h i} hgh hhi => ?_⟩
  · exact (hequal g g).mpr (.refl g.1)
  · exact (hequal h g).mpr ((hequal g h).mp hgh).symm
  · exact (hequal g i).mpr (((hequal g h).mp hgh).trans ((hequal h i).mp hhi))

/-- **Graphs are equal when they have the same keys with the same edges**, whatever the order of
their lists, their locations, their attributes and the kinds of their events. This is an equivalence
relation, and a copy is equal to its original just when no task of it is blocked. -/
theorem equal_exact (hg : g.Numbered) (hh : h.Numbered) (hga : g.Acyclic) (hha : h.Acyclic) :
    (g.equal h = true ↔ g.Coincides h) ∧
    Equivalence (fun g h : { g : Graph // g.Numbered ∧ g.Acyclic } => g.1.equal h.1 = true) ∧
    (g.copy.equal g = true ↔ ∀ task, g.isBlocked task = false) :=
  ⟨hg.equal_iff_coincides hh hga hha, equivalence_equal, hg.copy_equal_iff hga⟩

theorem not_blocked_of_nodes (hkind : ∀ n ∈ g.nodes, n.kind ≠ .block) (task : Int) :
    g.isBlocked task = false := by
  refine Bool.eq_false_iff.mpr fun hblocked => ?_
  have hlabel : g.isLabel (g.lastOf task) = true := (Bool.and_eq_true_iff.mp hblocked).2
  obtain ⟨n, hn⟩ := (has_of_isLabel hlabel).exists
  exact hkind n (mem_of_find? hn) ((isLabel_iff hn).mp hlabel)

/-- A graph is equal to its copy, and no longer when a task of it is blocked. -/
theorem copy_equal_observedGraph : observedGraph.Numbered ∧ observedGraph.Acyclic ∧
    observedGraph.copy.equal observedGraph = true := by
  have hg := (regular_of_edits edits_observedGraph).numbered
  have hfree : ∀ task, observedGraph.isBlocked task = false := not_blocked_of_nodes (by decide)
  exact ⟨hg, acyclic_observedGraph,
    (equal_exact hg hg acyclic_observedGraph acyclic_observedGraph).2.2.mpr hfree⟩

/-! ### Kinds -/

/-- A single event, which assumes something. -/
def assumingGraph : Graph := (Graph.initial.ensureTask 0).insertEvent (.new 0 .assume .none)

/-- A single event, which is an error. -/
def failingGraph : Graph := (Graph.initial.ensureTask 0).insertEvent (.new 0 .error .none)

/-- **The kinds of events make no difference**: an assumption and an error in its place are taken
for the same. -/
theorem not_equal_iff_of_kind : ¬∀ g h : Graph, g.Numbered → h.Numbered → g.Acyclic → h.Acyclic →
    (g.equal h = true ↔ g.Coincides h ∧ g.KindsAgree h) := by
  intro hall
  have hassuming : assumingGraph.Regular := regular_of_edits (.single
    (.addEvent (e := .new 0 .assume .none) (k := .place 0 0) (by decide) (by decide)
      ⟨fun hkind => absurd hkind (by decide), fun hkind => absurd hkind (by decide)⟩ rfl))
  have hfailing : failingGraph.Regular := regular_of_edits (.single
    (.addEvent (e := .new 0 .error .none) (k := .place 0 0) (by decide) (by decide)
      ⟨fun hkind => absurd hkind (by decide), fun hkind => absurd hkind (by decide)⟩ rfl))
  have hacyclic : assumingGraph.Acyclic := acyclic_of_forward (by decide)
  have hacyclic' : failingGraph.Acyclic := acyclic_of_forward (by decide)
  obtain ⟨-, hkinds⟩ :=
    (hall _ _ hassuming.numbered hfailing.numbered hacyclic hacyclic').mp (by decide)
  exact absurd (hkinds (.place 0 0) (by decide)) (by decide)

end Graph

end Interleaving
