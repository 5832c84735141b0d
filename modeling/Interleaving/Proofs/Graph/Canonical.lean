import Interleaving.Proofs.Graph.Arranged

/-!
# The topological order is canonical

What the walk over a graph does depends on the events and the edges between them, not on the lists
in which these are kept. When a node is visited, the nodes that become free are told by the numbers
of edges that are left, and they join the queue in the order of their keys. Labels are queued with
the events, and nothing comes of them. So two walks over graphs with the same events and the same
edges between them go through the same events (`Interleaving.Graph.Beside`), one of them turning to
a label now and then.

A walk over a graph therefore finds what the walk over the graph without labels finds, which is an
order that keeps all edges forward or a cycle; and **the order of events is the same for all graphs
with the same events and the same edges between them**.
-/

namespace Interleaving.Graph

variable {g h : Graph} {a b k : Key} {r : Relation} {t : Nat}

/-! ### What becomes free -/

/-- What has become free is looked up in the table. -/
theorem table_of_resolveAll {source : Key} {ks : List Key} {ns : List Node}
    (hns : g.resolveAll source ks = .ok ns) :
    ns.map (·.key) = ks ∧ ∀ m ∈ ns, g.find? m.key = some m := by
  induction ks generalizing ns with
  | nil =>
    cases hns
    exact ⟨rfl, by simp⟩
  | cons k ks ih =>
    rw [resolveAll] at hns
    split at hns
    · cases hns
    · rename_i m hm
      rcases hrest : g.resolveAll source ks with e | ms
      · rw [hrest] at hns
        cases hns
      · rw [hrest] at hns
        cases hns
        have hfind : g.find? k = some m := by
          unfold reachable? at hm
          split at hm
          · exact hm
          · cases hm
        have hkey := key_of_find? hfind
        obtain ⟨hkeys, htable⟩ := ih hrest
        exact ⟨by rw [List.map_cons, hkey, hkeys],
          List.forall_mem_cons.mpr ⟨hkey.symm ▸ hfind, htable⟩⟩

theorem Arranged.resolveAll (hg : g.Arranged) (source : Key) {ks : List Key}
    (hks : ∀ k ∈ ks, g.Has k) :
    ∃ ns, g.resolveAll source ks = .ok ns := by
  induction ks with
  | nil => exact ⟨[], rfl⟩
  | cons k ks ih =>
    obtain ⟨ns, hns⟩ := ih fun k hk => hks k (List.mem_cons_of_mem _ hk)
    obtain ⟨m, hm⟩ := (hks k List.mem_cons_self).exists
    refine ⟨m :: ns, ?_⟩
    rw [Graph.resolveAll, hg.reachable? hm, hns]
    rfl

theorem count_targets {m : Node} (ht : g.Tidy) (hm : g.find? m.key = some m) (k : Key) :
    (targets m).count k = (Relation.all.map fun r => if g.Out r m.key k then 1 else 0).sum := by
  rw [targets, List.count_flatMap]
  congr 1
  refine List.map_congr_left fun r _ => ?_
  rw [Function.comp_apply, Node.successors, Edges.count_keys (ht.succ hm)]
  exact if_congr (out_iff hm).symm rfl rfl

/-- The edges from an event to another one are as many in both graphs. -/
theorem SameEvents.count_targets (hs : SameEvents g h) (hg : g.Tidy) (hh : h.Tidy) {m m' : Node}
    (hm : g.find? m.key = some m) (hm' : h.find? m'.key = some m') (hkey : m'.key = m.key)
    (hk : k ∈ g.order) : (targets m).count k = (targets m').count k := by
  rw [Graph.count_targets hg hm, Graph.count_targets hh hm', hkey]
  simp only [hs.out hk]

theorem targets_eq_nil {m : Node} (hm : g.find? m.key = some m) (hend : ∀ {r b}, ¬g.Out r m.key b) :
    targets m = [] := by
  refine List.flatMap_eq_nil_iff.mpr fun r _ => List.eq_nil_iff_forall_not_mem.mpr fun b hb => ?_
  exact hend ((mem_successors hm).mp hb)

/-! ### Two walks side by side -/

/-- A walk over a graph beside one over a graph without labels: what the queues hold of events is
the same, and so is what is left to come along. -/
structure Beside (g h : Graph) (V V' : List Key) (p p' : Pending)
    (queue queue' : List Node) : Prop where
  walks : Walks h V' p' queue'
  has : ∀ k ∈ V, g.Has k
  table : ∀ m ∈ queue, g.find? m.key = some m
  nodup : (V ++ queue.map (·.key)).Nodup
  ahead : (queue.map (·.key)).filter (fun k => g.order.contains k) = queue'.map (·.key)
  pending : ∀ k ∈ g.order, left p k = left p' k
  /-- Nothing is left of the edges to a node that has been queued. -/
  spent : ∀ k ∈ V ++ queue.map (·.key), left p k ≤ 0

namespace Beside

variable {V V' : List Key} {p p' : Pending} {m m' : Node} {queue queue' : List Node}

/-- **A label is visited**: nothing else changes. -/
theorem label (hg : g.Arranged)
    (hf : Beside g h V V' p p' (m :: queue) queue') (hm : m.key ∉ g.order) :
    release p (targets m) = (p, []) ∧ Beside g h (V ++ [m.key]) V' p p' queue queue' := by
  have htable := hf.table m List.mem_cons_self
  have hlabel := (hg.mem_or_label (has_of_find? htable)).resolve_left hm
  have hlist : V ++ [m.key] ++ queue.map (·.key) = V ++ (m :: queue).map (·.key) := by simp
  refine ⟨by rw [targets_eq_nil htable (hg.label_end hlabel)]; rfl, hf.walks, fun k hk => ?_,
    fun m' hm' => ?_, ?_, ?_, hf.pending, ?_⟩
  · rcases List.mem_append.mp hk with hk | hk
    · exact hf.has k hk
    · rw [List.mem_singleton.mp hk]
      exact has_of_find? htable
  · exact hf.table m' (List.mem_cons_of_mem _ hm')
  · rw [hlist]
    exact hf.nodup
  · have hqueue := hf.ahead
    rwa [List.map_cons, List.filter_cons_of_neg (by simpa using hm)] at hqueue
  · rw [hlist]
    exact hf.spent

/-- The nodes that become free behind an event, labels left out, are the same in both graphs. -/
theorem sort_release (hg : g.Arranged) (hh : h.Formed) (hs : SameEvents g h)
    (hlabel : ∀ k, h.isLabel k = false) (hf : Beside g h V V' p p' (m :: queue) (m' :: queue'))
    (hkey : m'.key = m.key) :
    (Key.sort (release p (targets m)).2).filter (fun k => g.order.contains k) =
      Key.sort (release p' (targets m')).2 := by
  have htable := hf.table m List.mem_cons_self
  have htable' := hf.walks.table m' List.mem_cons_self
  have hhas : ∀ k ∈ (release p (targets m)).2, g.Has k := by
    intro k hk
    refine Classical.byContradiction fun hnone => ?_
    have hcount := (release_spec p (targets m) k).2
    rw [hg.tidy.count_targets_of_not_has htable hnone, if_neg (by omega),
      List.count_eq_zero] at hcount
    exact hcount hk
  have hevents : ∀ {k}, ¬k ∈ g.order → (release p' (targets m')).2.count k = 0 := by
    intro k hk
    have hnone : ¬h.Has k := fun hhas => by
      rcases hh.has_iff.mp hhas with hk' | hlab
      · exact hk ((hs.mem k).mpr hk')
      · exact absurd hlab.1 (by rw [hlabel]; decide)
    rw [(release_spec p' (targets m') k).2, hh.tidy.count_targets_of_not_has htable' hnone,
      if_neg (by omega)]
  rw [Key.filter_sort _ fun k hk => hg.named (hhas k hk)]
  refine Key.sort_eq_of_perm (List.perm_iff_count.mpr fun k => ?_) fun k hk =>
    hg.named (hhas k (List.mem_of_mem_filter hk))
  by_cases hk : k ∈ g.order
  · rw [List.count_filter (by simpa using hk), (release_spec p (targets m) k).2,
      (release_spec p' (targets m') k).2, hf.pending k hk,
      hs.count_targets hg.tidy hh.tidy htable htable' hkey hk]
  · rw [hevents hk, List.count_eq_zero]
    exact fun hmem => hk (by simpa using (List.mem_filter.mp hmem).2)

/-- **An event is visited** in both graphs, and the same events follow. -/
theorem event (hg : g.Arranged) (hh : h.Formed) (hs : SameEvents g h)
    (hlabel : ∀ k, h.isLabel k = false) (hf : Beside g h V V' p p' (m :: queue) (m' :: queue'))
    (hkey : m'.key = m.key) :
    ∃ next next', g.resolveAll m.key (Key.sort (release p (targets m)).2) = .ok next ∧
      h.resolveAll m'.key (Key.sort (release p' (targets m')).2) = .ok next' ∧
      Beside g h (V ++ [m.key]) (V' ++ [m'.key]) (release p (targets m)).1
        (release p' (targets m')).1 (queue ++ next) (queue' ++ next') := by
  have htable := hf.table m List.mem_cons_self
  have htable' := hf.walks.table m' List.mem_cons_self
  obtain ⟨next', hnext', hwalks⟩ := hf.walks.step hh
  have hperm := Key.sort_perm (release p (targets m)).2
  -- what becomes free had an edge left
  have hfree : ∀ k ∈ (release p (targets m)).2,
      1 ≤ left p k ∧ left p k ≤ ((targets m).count k : Int) := by
    intro k hk
    refine Classical.byContradiction fun hnone => ?_
    have hcount := (release_spec p (targets m) k).2
    rw [if_neg hnone, List.count_eq_zero] at hcount
    exact hcount hk
  have hhas : ∀ k ∈ Key.sort (release p (targets m)).2, g.Has k := by
    intro k hk
    obtain ⟨hone, hle⟩ := hfree k (hperm.mem_iff.mp hk)
    refine Classical.byContradiction fun hnone => ?_
    rw [hg.tidy.count_targets_of_not_has htable hnone] at hle
    omega
  obtain ⟨next, hnext⟩ := hg.resolveAll m.key hhas
  obtain ⟨hkeys, hnexttable⟩ := table_of_resolveAll hnext
  have hlist : V ++ [m.key] ++ (queue ++ next).map (·.key) =
      (V ++ (m :: queue).map (·.key)) ++ next.map (·.key) := by simp
  have hleft : ∀ k, left (release p (targets m)).1 k = left p k - ((targets m).count k : Int) :=
    fun k => (release_spec p (targets m) k).1
  refine ⟨next, next', hnext, hnext', hwalks, fun k hk => ?_, fun m₁ hm₁ => ?_, ?_, ?_,
    fun k hk => ?_, fun k hk => ?_⟩
  · rcases List.mem_append.mp hk with hk | hk
    · exact hf.has k hk
    · rw [List.mem_singleton.mp hk]
      exact has_of_find? htable
  · rcases List.mem_append.mp hm₁ with hm₁ | hm₁
    · exact hf.table m₁ (List.mem_cons_of_mem _ hm₁)
    · exact hnexttable m₁ hm₁
  · rw [hlist, hkeys, List.nodup_append]
    refine ⟨hf.nodup, ?_, ?_⟩
    · rw [hperm.nodup_iff, List.nodup_iff_count]
      intro k
      rw [(release_spec p (targets m) k).2]
      split <;> omega
    · rintro x hx y hy rfl
      have hspent := hf.spent x hx
      have hone := (hfree x (hperm.mem_iff.mp hy)).1
      omega
  · have hqueue := hf.ahead
    have hmem : m.key ∈ g.order := by
      rw [hs.mem, ← hkey]
      refine (hh.has_iff.mp (has_of_find? htable')).resolve_right fun hlab => ?_
      exact absurd hlab.1 (by rw [hlabel]; decide)
    rw [List.map_cons, List.map_cons, List.filter_cons_of_pos (by simpa using hmem),
      List.cons.injEq] at hqueue
    rw [List.map_append, List.filter_append, hqueue.2, List.map_append, hkeys,
      (table_of_resolveAll hnext').1, hf.sort_release hg hh hs hlabel hkey]
  · rw [hleft, hf.pending k hk, (release_spec p' (targets m') k).1,
      hs.count_targets hg.tidy hh.tidy htable htable' hkey hk]
  · rw [hleft]
    rw [hlist, List.mem_append, hkeys] at hk
    rcases hk with hk | hk
    · have hspent := hf.spent k hk
      omega
    · have hle := (hfree k (hperm.mem_iff.mp hk)).2
      omega

/-- **Two whole walks**: they come to an end, however many turns they are given, and visit the same
events in the same order. -/
theorem run (hg : g.Arranged) (hh : h.Formed) (hs : SameEvents g h)
    (hlabel : ∀ k, h.isLabel k = false) {n j : Nat} (hf : Beside g h V V' p p' queue queue')
    (hturns : g.nodes.length < V.length + n)
    (hturns' : h.nodes.length < V'.length + j) :
    ∃ W W', (∀ i, g.walk (n + i) p queue = (W, none)) ∧ h.walk j p' queue' = (W', none) ∧
      (∀ m ∈ W, g.find? m.key = some m) ∧ (W.filter isEvent).map (·.key) = W'.map (·.key) := by
  -- on the turns of the walk with labels, which takes one turn more at every label
  induction n generalizing V V' p p' queue queue' j with
  | zero =>
    have hle := length_le_of_has (List.nodup_append.mp hf.nodup).1 hf.has
    omega
  | succ n ih =>
    cases queue with
    | nil =>
      obtain rfl : queue' = [] := List.map_eq_nil_iff.mp hf.ahead.symm
      refine ⟨[], [], fun i => ?_, ?_, by simp, rfl⟩
      · rw [Nat.succ_add]
        rfl
      · cases j <;> rfl
    | cons m queue =>
      have htable := hf.table m List.mem_cons_self
      by_cases hm : m.key ∈ g.order
      · -- an event, which is in front of the other queue too
        obtain ⟨m', queue', rfl, hkey⟩ : ∃ m' queue'', queue' = m' :: queue'' ∧ m'.key = m.key := by
          have hahead := hf.ahead
          rw [List.map_cons, List.filter_cons_of_pos (by simpa using hm)] at hahead
          obtain ⟨m', queue'', rfl, hkey, -⟩ := List.map_eq_cons_iff.mp hahead.symm
          exact ⟨m', queue'', rfl, hkey⟩
        obtain ⟨next, next', hnext, hnext', hstep⟩ := hf.event hg hh hs hlabel hkey
        cases j with
        | zero =>
          have hle := length_le_of_has (List.nodup_append.mp hf.walks.nodup).1 hf.walks.has
          omega
        | succ j =>
          obtain ⟨W, W', hW, hW', hWtable, hkeys⟩ :=
            ih (j := j) hstep (by simp; omega) (by simp; omega)
          refine ⟨m :: W, m' :: W', fun i => ?_, walk_cons hnext' hW',
            List.forall_mem_cons.mpr ⟨htable, hWtable⟩, ?_⟩
          · rw [Nat.succ_add]
            exact walk_cons hnext (hW i)
          · rw [List.filter_cons_of_pos ((hg.isEvent_iff htable).mpr hm), List.map_cons,
              List.map_cons, hkeys, hkey]
      · -- a label, which the other walk does not have
        obtain ⟨hrelease, hstep⟩ := hf.label hg hm
        obtain ⟨W, W', hW, hW', hWtable, hkeys⟩ := ih hstep (by simp; omega) hturns'
        have hnone : g.resolveAll m.key (Key.sort (release p (targets m)).2) = .ok [] := by
          rw [hrelease]
          rfl
        refine ⟨m :: W, W', fun i => ?_, hW', List.forall_mem_cons.mpr ⟨htable, hWtable⟩, ?_⟩
        · rw [Nat.succ_add]
          refine walk_cons hnone ?_
          rw [hrelease, List.append_nil]
          exact hW i
        · rw [List.filter_cons_of_neg fun hevent => hm ((hg.isEvent_iff htable).mp hevent), hkeys]

end Beside

/-! ### Where the walks start -/

/-- As many edges lead to an event in both graphs. -/
theorem SameEvents.length_pred (hs : SameEvents g h) (hg : g.Arranged) (hh : h.Tidy)
    (hm : h.Mirrored) {n n' : Node} (hk : k ∈ g.order) (hn : g.find? k = some n)
    (hn' : h.find? k = some n') : n.pred.length = n'.pred.length := by
  refine ((List.perm_ext_iff_of_nodup (hg.tidy.pred hn) (hh.pred hn')).mpr ?_).length_eq
  rintro ⟨r, a⟩
  rw [← in_iff hn, ← in_iff hn']
  exact ⟨fun hin => hh.known ((hs.out hk).mp (hg.mirrored _ _ _ hin)),
    fun hin => hg.tidy.known ((hs.out hk).mpr (hm _ _ _ hin))⟩

theorem Beside.start (hg : g.Arranged) (hh : h.Formed) (hm : h.Mirrored) (hs : SameEvents g h)
    {n n' : Node} (hn : g.find? .init = some n) (hn' : h.find? .init = some n') :
    Beside g h [] [] g.pending h.pending [n] [n'] := by
  have hkey := key_of_find? hn
  refine ⟨hh.walks hn', by simp, fun m hmem => ?_, by simp, ?_, fun k hk => ?_, fun k hk => ?_⟩
  · rw [List.mem_singleton.mp hmem, hkey, hn]
  · rw [List.map_singleton, List.map_singleton, hkey, key_of_find? hn',
      List.filter_cons_of_pos (by simpa using hg.init_mem)]
    rfl
  · obtain ⟨m, hm₁⟩ := (hg.has hk).exists
    obtain ⟨m', hm'⟩ := (hh.has_iff.mpr (Or.inl ((hs.mem k).mp hk))).exists
    rw [left_pending_of_mem hk hm₁, hh.left_pending hm', hs.length_pred hg hh.tidy hm hk hm₁ hm']
  · rw [List.nil_append, List.map_singleton, List.mem_singleton, hkey] at hk
    subst hk
    have hnil : n.pred = [] :=
      List.eq_nil_iff_forall_not_mem.mpr fun e he => hg.no_cause ⟨n, hn, he⟩
    rw [left_pending_of_mem hg.init_mem hn, hnil]
    rfl

/-- **Walks over two graphs with the same events**, one of them without labels: both end, visit the
same events in the same order, and complain of the same. -/
theorem SameEvents.visit (hs : SameEvents g h) (hg : g.Arranged) (hh : h.Formed) (hm : h.Mirrored)
    (hlabel : ∀ k, h.isLabel k = false) :
    ∃ W W' c, g.visit = (W, c) ∧ h.visit = (W', c) ∧ (∀ m ∈ W, g.find? m.key = some m) ∧
      Visited h W' ∧ (W.filter isEvent).map (·.key) = (W'.filter isEvent).map (·.key) ∧
      ∀ first i, g.find? .init = some first →
        g.walk (g.nodes.length + 2 + i) g.pending [first] = (W, none) := by
  obtain ⟨n, hn⟩ := (hg.has hg.init_mem).exists
  obtain ⟨n', hn'⟩ := hh.find? hh.init_mem
  obtain ⟨W, W', hW, hW', htable, hkeys⟩ :=
    (Beside.start hg hh hm hs hn hn').run (n := g.nodes.length + 2) (j := h.nodes.length + 2)
    hg hh hs hlabel (by simp) (by simp)
  obtain ⟨W₂, hv, hvisit⟩ := hh.visit
  have hwalk : h.visit = (W', if (W'.filter isEvent).length = h.size then none
      else some (.cycle (W'.filter isEvent).length h.size)) := by
    unfold Graph.visit
    rw [hh.first, Option.bind_some, hn']
    dsimp only
    rw [hW']
  obtain rfl : W' = W₂ := congrArg Prod.fst (hwalk.symm.trans hvisit)
  -- without labels all that is visited are events
  have hall : W'.filter isEvent = W' := by
    refine List.filter_eq_self.mpr fun m hmem => ?_
    have hfind := hv.table m hmem
    refine (hh.isEvent_iff hfind).mpr
      ((hh.has_iff.mp (has_of_find? hfind)).resolve_right fun hlab => ?_)
    rw [hlabel] at hlab
    exact absurd hlab.1 (by decide)
  rw [← hall] at hkeys
  have hlength : (W.filter isEvent).length = (W'.filter isEvent).length := by
    rw [← List.length_map (·.key), hkeys, List.length_map]
  refine ⟨W, W', _, ?_, hvisit, htable, hv, hkeys, fun first i hfirst => ?_⟩
  · unfold Graph.visit
    rw [hg.first, Option.bind_some, hn]
    dsimp only
    rw [show g.walk (g.nodes.length + 2) g.pending [n] = (W, none) from hW 0, hlength,
      hs.size hg.nodup hh.nodup]
  · rw [hn] at hfirst
    cases hfirst
    exact hW i

/-! ### The order -/

/-- The keys of the events in topological order. -/
def sortedKeys (g : Graph) : Except Error (List Key) :=
  g.topologicalOrder.map fun ns => ns.map (·.key)

theorem SameEvents.sortedKeys_eq (hs : SameEvents g h) (hg : g.Arranged) (hh : h.Formed)
    (hm : h.Mirrored) (hlabel : ∀ k, h.isLabel k = false) : g.sortedKeys = h.sortedKeys := by
  obtain ⟨W, W', c, hvisit, hvisit', -, -, hkeys, -⟩ := hs.visit hg hh hm hlabel
  unfold sortedKeys topologicalOrder
  rw [hvisit, hvisit']
  cases c with
  | none => exact congrArg Except.ok hkeys
  | some e => rfl

theorem SameEvents.refl (g : Graph) : SameEvents g g := ⟨fun _ => Iff.rfl, fun _ => Iff.rfl⟩

namespace Arranged

variable (hg : g.Arranged)
include hg

theorem sortedKeys_unlabelled (hs : SameEvents h g) (hh : h.Arranged) :
    h.sortedKeys = g.unlabelled.sortedKeys :=
  (hg.sameEvents_unlabelled hs).sortedKeys_eq hh hg.formed_unlabelled hg.mirrored_unlabelled
    (isLabel_unlabelled hg)

/-- **Graphs with the same events and the same edges between them are sorted in the same way.** -/
theorem sortedKeys_eq (hh : h.Arranged) (hs : SameEvents g h) : g.sortedKeys = h.sortedKeys :=
  (hh.sortedKeys_unlabelled hs hg).trans (hh.sortedKeys_unlabelled (.refl h) hh).symm

/-- An order of the events starts with the first one. -/
theorem head?_of_sorted {ns : List Node} (hns : Sorted g ns) :
    (ns.map (·.key)).head? = some .init := by
  cases hkeys : ns.map (·.key) with
  | nil => exact absurd (hns.mem.mpr hg.init_mem) (by rw [hkeys]; exact List.not_mem_nil)
  | cons k ks =>
    have hk : k ∈ g.order := hns.mem.mp (by rw [hkeys]; exact List.mem_cons_self)
    refine congrArg some (Classical.byContradiction fun hne => ?_)
    obtain ⟨a, hin⟩ := hg.linked hk hne
    have hlt := (hns.forward hk hin).1.2
    rw [hkeys, List.idxOf_cons_self] at hlt
    exact Nat.not_lt_zero _ hlt

/-- Events in order do not run in a cycle. -/
theorem acyclic_of_sorted {ns : List Node} (hns : Sorted g ns) : g.Acyclic := by
  have hlt : ∀ {a b}, Relation.TransGen g.Leads a b → b ∈ g.order →
      (ns.map (·.key)).idxOf a < (ns.map (·.key)).idxOf b := by
    intro a b hab
    induction hab with
    | single hab =>
      obtain ⟨r, hin⟩ := hab
      exact fun hb => (hns.forward hb hin).1.2
    | tail _ hbc ih =>
      obtain ⟨r, hin⟩ := hbc
      exact fun hc => (ih (hg.source_mem hin)).trans (hns.forward hc hin).1.2
  exact fun k hk => Nat.lt_irrefl _ (hlt hk (mem_of_path hg.source_mem hk))

theorem ranked_unlabelled (hacyclic : g.Acyclic) : g.unlabelled.Ranked g.depth :=
  fun r a b hin => ranked_depth hg.source_mem hacyclic r a b (in_unlabelled.mp hin).2

/-- **The events of a graph are put in order unless the edges run in a cycle**, and this is what the
complaint says then. -/
theorem topologicalOrder_cases :
    (∃ ns, g.topologicalOrder = .ok ns ∧ Sorted g ns) ∨
      (∃ i j, g.topologicalOrder = .error (.cycle i j)) ∧ ¬g.Acyclic := by
  have hf := hg.formed_unlabelled
  obtain ⟨W, W', c, hvisit, hvisit', htable, -, hkeys, -⟩ :=
    (hg.sameEvents_unlabelled (.refl g)).visit hg hf hg.mirrored_unlabelled (isLabel_unlabelled hg)
  rcases hf.topologicalOrder_cases hg.mirrored_unlabelled with
    ⟨ns, hns, hsorted⟩ | ⟨⟨i, j, hcycle⟩, hrank⟩
  · rw [topologicalOrder, hvisit'] at hns
    cases c with
    | some e => cases hns
    | none =>
      obtain rfl := Except.ok.inj hns
      refine Or.inl ⟨W.filter isEvent, by rw [topologicalOrder, hvisit], ?_, ?_, ?_, ?_⟩
      · rw [hkeys]
        exact hsorted.nodup
      · rw [hkeys]
        exact hsorted.mem
      · exact fun n hn => htable n (List.mem_of_mem_filter hn)
      · intro r a b hb hin
        rw [hkeys]
        exact ⟨(hsorted.forward hb (in_unlabelled.mpr ⟨hb, hin⟩)).1, hg.mirrored r a b hin⟩
  · rw [topologicalOrder, hvisit'] at hcycle
    cases c with
    | none => cases hcycle
    | some e =>
      obtain rfl := Except.error.inj hcycle
      exact Or.inr ⟨⟨i, j, by rw [topologicalOrder, hvisit]⟩,
        fun hacyclic => hrank _ (hg.ranked_unlabelled hacyclic)⟩

end Arranged

theorem Sorted.perm {ns : List Node} (hns : Sorted g ns) (hnodup : g.order.Nodup) :
    (ns.map (·.key)).Perm g.order :=
  (List.perm_ext_iff_of_nodup hns.nodup hnodup).mpr fun _ => hns.mem

/-- **The topological order is correct and canonical.** The walk ends within as many turns as there
are nodes. Without a cycle it puts the events in an order that starts with the first one and keeps
all edges forward, and it complains of a cycle when there is one. What comes out is the same for all
graphs with the same events and the same edges between them, and labels play no part in it: one may
be put at the end of a task that is not blocked, and one to which only program order leads may be
taken off. -/
theorem topologicalOrder_canonical (hg : g.Arranged) :
    (∀ first i, g.find? .init = some first →
      g.walk (g.nodes.length + 2 + i) g.pending [first] =
        g.walk (g.nodes.length + 2) g.pending [first]) ∧
    (g.Acyclic → ∃ ns, g.topologicalOrder = .ok ns ∧ (ns.map (·.key)).Perm g.order ∧
      (ns.map (·.key)).head? = some .init ∧ Sorted g ns) ∧
    (¬g.Acyclic → ∃ i j, g.topologicalOrder = .error (.cycle i j)) ∧
    (∀ h : Graph, h.Arranged → SameEvents g h → g.sortedKeys = h.sortedKeys) ∧
    (∀ t : Nat, g.isBlocked t = false → (g.block t).sortedKeys = g.sortedKeys) ∧
    ∀ t n : Nat, g.isLabel (.place t n) = true →
      (∀ r a, g.In r a (.place t n) → r = .programOrder ∧ a = .prior t n) →
        (g.dropLabel t).sortedKeys = g.sortedKeys := by
  refine ⟨fun first i hfirst => ?_, fun hacyclic => ?_, fun hcycle => ?_,
    fun h hh hs => hg.sortedKeys_eq hh hs,
    fun t hfree => ?_, fun t n hlabel hcause => ?_⟩
  · obtain ⟨W, -, -, -, -, -, -, -, hwalk⟩ :=
      (hg.sameEvents_unlabelled (.refl g)).visit hg hg.formed_unlabelled
      hg.mirrored_unlabelled (isLabel_unlabelled hg)
    rw [hwalk first i hfirst]
    exact (hwalk first 0 hfirst).symm
  · rcases hg.topologicalOrder_cases with ⟨ns, hns, hsorted⟩ | ⟨-, hcycle⟩
    · exact ⟨ns, hns, hsorted.perm hg.nodup, hg.head?_of_sorted hsorted, hsorted⟩
    · exact absurd hacyclic hcycle
  · rcases hg.topologicalOrder_cases with ⟨ns, -, hsorted⟩ | ⟨herror, -⟩
    · exact absurd (hg.acyclic_of_sorted hsorted) hcycle
    · exact herror
  · exact (hg.sortedKeys_eq (hg.block hfree) (hg.sameEvents_block hfree)).symm
  · exact (hg.sortedKeys_eq (hg.dropLabel hlabel hcause)
      (hg.sameEvents_dropLabel hlabel hcause)).symm

/-- Edges that all go forward in the total order do not run in a cycle. -/
theorem acyclic_of_forward
    (hforward : ∀ n ∈ g.nodes, ∀ e ∈ n.pred, g.order.idxOf e.2 < g.order.idxOf n.key) :
    g.Acyclic := by
  have hranked : g.Ranked fun k => g.order.idxOf k := by
    rintro r a b ⟨n, hn, hmem⟩
    have hlt := hforward n (mem_of_find? hn) (r, a) hmem
    rwa [key_of_find? hn] at hlt
  exact hranked.acyclic

theorem acyclic_observedGraph : observedGraph.Acyclic := acyclic_of_forward (by decide)

/-- A read that sees a write of another task, which has been blocked since. -/
theorem sortedKeys_observedGraph : observedGraph.Arranged ∧
    (∃ ns, observedGraph.topologicalOrder = .ok ns ∧
      Before (ns.map (·.key)) (.place 0 0) (.place 1 0)) ∧
    (observedGraph.block 0).sortedKeys = observedGraph.sortedKeys := by
  have hg := (regular_of_edits edits_observedGraph).arranged
  obtain ⟨-, horder, -, -, hblock, -⟩ := topologicalOrder_canonical hg
  obtain ⟨ns, hns, -, -, hsorted⟩ := horder acyclic_observedGraph
  have hread : observedGraph.In .readsFrom (.place 0 0) (.place 1 0) := ⟨_, rfl, by decide⟩
  exact ⟨hg, ⟨ns, hns, (hsorted.forward (by decide) hread).1⟩, hblock 0 (by decide)⟩

end Interleaving.Graph
