import Interleaving.Graph.Order
import Interleaving.Proofs.Before
import Interleaving.Proofs.Graph.Table
import Interleaving.Proofs.Sorting
import Mathlib

/-!
# The topological order is one

The walk that sorts a graph keeps, for every node, the number of edges into it that it has not come
along yet (`Interleaving.Graph.Walks`). A node is queued when that number comes to zero, which
happens once. So the walk visits a node after everything that has an edge to it, and **whatever
order comes of it keeps all edges forward**
(`Interleaving.Graph.Formed.sorted_of_topologicalOrder`). If all edges are known where they start,
**the walk visits all nodes just when the edges do not run in a cycle**
(`Interleaving.Graph.Formed.visit_of_ranked`, `Interleaving.Graph.Formed.topologicalOrder_cases`).
-/

namespace Interleaving

namespace Edges

variable {es : Edges} {r : Relation} {k : Key}

theorem count_keys (h : es.Nodup) : (es.keys r).count k = if (r, k) ∈ es then 1 else 0 := by
  induction es with
  | nil => rfl
  | cons e es ih =>
    obtain ⟨r', k'⟩ := e
    rw [List.nodup_cons] at h
    have ih := ih h.2
    unfold keys at ih ⊢
    rw [List.filterMap_cons]
    by_cases hr : r' = r
    · subst hr
      by_cases hk : k' = k
      · subst hk
        have hnot : (r', k') ∉ es := h.1
        simp [ih, hnot]
      · have hne : ¬((r', k) = (r', k')) := by simpa using Ne.symm hk
        simp [hk, ih, List.mem_cons, hne]
    · have hne : ¬((r, k) = (r', k')) := fun heq => hr (by cases heq; rfl)
      simp [hr, ih, List.mem_cons, hne]

theorem nodup_keys (h : es.Nodup) : (es.keys r).Nodup := by
  rw [List.nodup_iff_count]
  intro k
  rw [count_keys h]
  split <;> omega

/-- The number of edges with a key at the other end is the number of relations under which there is
one. -/
theorem countP_eq_sum (h : es.Nodup) :
    es.countP (fun e => e.2 = k) =
      (Relation.all.map fun r => if (r, k) ∈ es then 1 else 0).sum := by
  induction es with
  | nil => rfl
  | cons e es ih =>
    obtain ⟨r', k'⟩ := e
    rw [List.nodup_cons] at h
    rw [List.countP_cons, ih h.2]
    by_cases hk : k' = k
    · subst hk
      have hnot := h.1
      cases r' <;> simp [Relation.all, hnot] <;> omega
    · have hne : ∀ r, ((r, k) ∈ (r', k') :: es ↔ (r, k) ∈ es) := by
        intro r
        rw [List.mem_cons, Prod.mk.injEq]
        exact or_iff_right fun heq => hk heq.2.symm
      simp [hk, hne]

/-- The same for the edges under some relations only. -/
theorem countP_and_eq_sum (h : es.Nodup) (p : Relation → Bool) :
    es.countP (fun e => p e.1 && decide (e.2 = k)) =
      (Relation.all.map fun r => if (r, k) ∈ es ∧ p r = true then 1 else 0).sum := by
  have hfilter : es.countP (fun e => p e.1 && decide (e.2 = k)) =
      (es.filter fun e => p e.1).countP fun e => e.2 = k := by
    rw [List.countP_filter]
    refine List.countP_congr fun e _ => ?_
    rw [Bool.and_comm]
  have hmem : ∀ r, (r, k) ∈ (es.filter fun e => p e.1) ↔ (r, k) ∈ es ∧ p r = true :=
    fun r => List.mem_filter
  have hnodup : (es.filter fun e => p e.1).Nodup := h.filter _
  rw [hfilter, countP_eq_sum hnodup]
  simp only [hmem]

end Edges

namespace Graph

variable {g : Graph}

theorem eq_singleton {α : Type} {xs : List α} {x : α} (hnodup : xs.Nodup)
    (h : ∀ y, y ∈ xs ↔ y = x) : xs = [x] := by
  cases xs with
  | nil => exact absurd ((h x).mpr rfl) List.not_mem_nil
  | cons y ys =>
    obtain rfl := (h y).mp List.mem_cons_self
    rw [List.nodup_cons] at hnodup
    cases ys with
    | nil => rfl
    | cons z zs =>
      obtain rfl := (h z).mp (by simp)
      exact absurd List.mem_cons_self hnodup.1

/-- A read with one source lists it alone. -/
theorem Tidy.predecessors_eq (h : g.Tidy) {read v : Key} {m : Node} (hm : g.find? read = some m)
    (hsource : ∀ a, g.In .readsFrom a read ↔ a = v) : m.predecessors .readsFrom = [v] :=
  eq_singleton (Edges.nodup_keys (h.pred hm)) fun a => by rw [← hsource, mem_predecessors hm]

/-! ### Graphs that can be walked -/

/-- A graph whose table holds the events of the total order and a label at the end of some tasks, in
which every event but the first has an edge into it and nothing comes after a label. -/
structure Formed (g : Graph) : Prop where
  tidy : g.Tidy
  nodup : g.order.Nodup
  first : g.order.head? = some .init
  has_iff : ∀ {k}, g.Has k ↔ k ∈ g.order ∨ g.isLabel k = true ∧ g.lastOf k.task = k
  not_label : ∀ {k}, k ∈ g.order → g.isLabel k = false
  label_pred : ∀ {k n}, g.find? k = some n → g.isLabel k = true → n.pred.length = 1
  label_succ : ∀ {r a b}, g.isLabel a = true → ¬g.In r a b
  no_cause : ∀ {r a}, ¬g.In r a .init
  caused : ∀ {b}, g.Has b → b ≠ .init → ∃ r a, g.In r a b

theorem isLabel_iff {k : Key} {n : Node} (h : g.find? k = some n) :
    g.isLabel k = true ↔ n.kind = .block := by
  simp [isLabel, kindOf?, h]

theorem Formed.find? (h : g.Formed) {k : Key} (hk : k ∈ g.order) : ∃ n, g.find? k = some n :=
  (h.has_iff.mpr (Or.inl hk)).exists

theorem Formed.init_mem (h : g.Formed) : Key.init ∈ g.order :=
  List.mem_of_mem_head? (by rw [h.first]; rfl)

theorem Formed.isEvent_iff (h : g.Formed) {k : Key} {n : Node} (hn : g.find? k = some n) :
    isEvent n = true ↔ k ∈ g.order := by
  have hblock : isEvent n = true ↔ ¬g.isLabel k = true := by
    rw [isLabel_iff hn]
    simp [isEvent, Kind.isBlocking]
  rw [hblock]
  constructor
  · exact fun hnot => (h.has_iff.mp (has_of_find? hn)).resolve_right fun hlabel => hnot hlabel.1
  · intro hk
    rw [h.not_label hk]
    exact Bool.false_ne_true

theorem Formed.reachable? (h : g.Formed) {k : Key} {n : Node} (hn : g.find? k = some n) :
    g.reachable? k = some n := by
  have hk := h.has_iff.mp (has_of_find? hn)
  unfold Graph.reachable?
  rw [if_pos ?_, hn]
  rcases hk with hk | ⟨hlabel, hlast⟩
  · simp [hk]
  · simp [hlabel, hlast]

/-- Keys of the table resolve. -/
theorem Formed.resolveAll (h : g.Formed) (source : Key) {ks : List Key} (hks : ∀ k ∈ ks, g.Has k) :
    ∃ ns, g.resolveAll source ks = .ok ns ∧ ns.map (·.key) = ks ∧ ∀ n ∈ ns,
      g.find? n.key = some n := by
  induction ks with
  | nil => exact ⟨[], rfl, rfl, by simp⟩
  | cons k ks ih =>
    obtain ⟨ns, hns, hmap, htable⟩ := ih fun k hk => hks k (List.mem_cons_of_mem _ hk)
    obtain ⟨n, hn⟩ := (hks k List.mem_cons_self).exists
    have hkey := key_of_find? hn
    refine ⟨n :: ns, ?_, by rw [List.map_cons, hkey, hmap], ?_⟩
    · rw [Graph.resolveAll, h.reachable? hn, hns]
      rfl
    · intro m hm
      rcases List.mem_cons.mp hm with rfl | hm
      · rw [hkey]
        exact hn
      · exact htable m hm

/-! ### Counting edges -/

/-- The number of edges into a key that the walk still waits for. -/
def left (p : Pending) (k : Key) : Int := (p.lookup k).getD 1

theorem left_decrease (p : Pending) (k k' : Key) :
    (p.decrease k).1 = left p k - 1 ∧
      left (p.decrease k).2 k' = if k' = k then left p k - 1 else left p k' := by
  unfold Pending.decrease left
  cases hd : p.lookup k with
  | some d =>
    refine ⟨rfl, ?_⟩
    dsimp only
    rw [lookup_map_replace, hd]
    split <;> rfl
  | none =>
    refine ⟨rfl, ?_⟩
    dsimp only
    rw [List.lookup_append, List.lookup_cons]
    by_cases hk : k' = k
    · subst hk
      simp [hd]
    · rw [beq_eq_false_iff_ne.mpr hk, if_neg hk]
      simp

/-- Taking edges away lowers the numbers, and a key becomes free when its number comes to zero. -/
theorem release_spec (p : Pending) (ts : List Key) (k : Key) :
    left (release p ts).1 k = left p k - (ts.count k : Int) ∧
      (release p ts).2.count k = if 1 ≤ left p k ∧ left p k ≤ (ts.count k : Int) then 1 else 0 := by
  induction ts generalizing p with
  | nil =>
    refine ⟨by simp [release], ?_⟩
    rw [if_neg (by simp; omega)]
    rfl
  | cons t ts ih =>
    have hdec := left_decrease p t k
    obtain ⟨ih₁, ih₂⟩ := ih (p.decrease t).2
    have hfst : (release p (t :: ts)).1 = (release (p.decrease t).2 ts).1 := rfl
    have hsnd : (release p (t :: ts)).2 =
        if left p t - 1 = 0 then t :: (release (p.decrease t).2 ts).2
        else (release (p.decrease t).2 ts).2 := by
      rw [← hdec.1]
      rfl
    rw [hfst, hsnd, ih₁, hdec.2]
    rw [hdec.2] at ih₂
    by_cases hk : k = t
    · subst hk
      rw [if_pos rfl] at ih₂ ⊢
      rw [List.count_cons_self]
      refine ⟨by omega, ?_⟩
      split
      · rw [List.count_cons_self, ih₂, if_neg (by omega), if_pos (by omega)]
      · rw [ih₂]
        refine if_congr ?_ rfl rfl
        omega
    · rw [if_neg hk] at ih₂ ⊢
      rw [List.count_cons_of_ne (Ne.symm hk)]
      refine ⟨rfl, ?_⟩
      split
      · rw [List.count_cons_of_ne (Ne.symm hk), ih₂]
      · exact ih₂

/-- The edges from a node to another one, counted where they start and, if they are known there,
where they point to. -/
theorem Tidy.count_targets (h : g.Tidy) {m n : Node} (hm : g.find? m.key = some m)
    (hn : g.find? n.key = some n) :
    (targets m).count n.key = n.pred.countP fun e => decide (g.Out e.1 m.key n.key) &&
    decide (e.2 = m.key) := by
  have hsame : ∀ r, (r, n.key) ∈ m.succ ↔
      (r, m.key) ∈ n.pred ∧ decide (g.Out r m.key n.key) = true := by
    intro r
    rw [decide_eq_true_eq, ← in_iff hn, ← Graph.out_iff hm]
    exact ⟨fun hout => ⟨h.known hout, hout⟩, And.right⟩
  have hcount : ∀ r, (m.successors r).count n.key = if (r, n.key) ∈ m.succ then 1 else 0 :=
    fun r => Edges.count_keys (h.succ hm)
  rw [Edges.countP_and_eq_sum (h.pred hn) fun r => decide (g.Out r m.key n.key), targets,
    List.count_flatMap]
  congr 1
  refine List.map_congr_left fun r _ => ?_
  rw [Function.comp_apply, hcount]
  exact if_congr (hsame r) rfl rfl

theorem Tidy.count_targets_of_not_has (h : g.Tidy) {m : Node}
    (hm : g.find? m.key = some m) {k : Key} (hk : ¬g.Has k) : (targets m).count k = 0 := by
  rw [List.count_eq_zero]
  intro hmem
  obtain ⟨r, -, hmem⟩ := List.mem_flatMap.mp hmem
  exact hk (h.has_target ((mem_successors hm).mp hmem))

/-! ### The walk -/

/-- The number of edges into a node that the walk has not come along: they come from a node not yet
visited, or are not known where they start. -/
def ahead (g : Graph) (V : List Key) (n : Node) : Nat :=
  n.pred.countP fun e => decide (¬(e.2 ∈ V ∧ g.Out e.1 e.2 n.key))

theorem ahead_append {V : List Key} {k : Key} (hk : k ∉ V) (n : Node) :
    g.ahead (V ++ [k]) n + (n.pred.countP fun e => decide (g.Out e.1 k n.key) && decide (e.2 = k)) =
      g.ahead V n := by
  unfold ahead
  induction n.pred with
  | nil => rfl
  | cons e es ih =>
    rw [List.countP_cons, List.countP_cons, List.countP_cons, ← ih]
    by_cases he : e.2 = k
    · subst he
      by_cases hout : g.Out e.1 e.2 n.key
      · simp [hk, hout]
        omega
      · simp [hout]
        omega
    · by_cases hV : e.2 ∈ V
      · simp [he, hV]
        omega
      · simp [he, hV]
        omega

theorem ahead_eq_zero {V : List Key} {n : Node} :
    g.ahead V n = 0 ↔ ∀ e ∈ n.pred, e.2 ∈ V ∧ g.Out e.1 e.2 n.key := by
  simp only [ahead, List.countP_eq_zero, decide_eq_true_eq, not_not]

/-- Where the walk stands: what it has visited, the numbers it keeps and the queue. -/
structure Walks (g : Graph) (V : List Key) (p : Pending) (queue : List Node) : Prop where
  nodup : (V ++ queue.map (·.key)).Nodup
  has : ∀ k ∈ V, g.Has k
  table : ∀ n ∈ queue, g.find? n.key = some n
  pending : ∀ {k n}, g.find? k = some n → left p k = (g.ahead V n : Int)
  queued : ∀ {k n}, g.find? k = some n → (k ∈ V ++ queue.map (·.key) ↔ g.ahead V n = 0)
  forward : ∀ {r a b}, b ∈ V → g.In r a b → Before V a b ∧ g.Out r a b

/-- **One turn of the walk**: the node in front is visited, and the nodes that wait for nothing else
follow. -/
theorem Walks.step (h : g.Formed) {V : List Key} {p : Pending} {n : Node} {queue : List Node}
    (hw : Walks g V p (n :: queue)) :
    ∃ next, g.resolveAll n.key (Key.sort (release p (targets n)).2) = .ok next ∧
      Walks g (V ++ [n.key]) (release p (targets n)).1 (queue ++ next) := by
  have hn := hw.table n List.mem_cons_self
  have hnot : n.key ∉ V := by
    have hnodup := hw.nodup
    rw [List.nodup_append] at hnodup
    exact fun hV => hnodup.2.2 _ hV _ List.mem_cons_self rfl
  -- a node is released when the one in front was the last it waited for
  have hcount : ∀ {k m}, g.find? k = some m →
      (release p (targets n)).2.count k =
        if 1 ≤ g.ahead V m ∧ g.ahead (V ++ [n.key]) m = 0 then 1 else 0 := by
    intro k m hm
    have hkey := key_of_find? hm
    rw [(release_spec p (targets n) k).2, hw.pending hm, ← hkey,
      h.tidy.count_targets hn (hkey ▸ hm)]
    refine if_congr ?_ rfl rfl
    have := ahead_append (g := g) hnot m
    omega
  -- nothing is released that has no node, as no edge leads there
  have hfree : ∀ k ∈ (release p (targets n)).2, g.Has k := by
    intro k hk
    refine Classical.byContradiction fun hnone => ?_
    have hzero := (release_spec p (targets n) k).2
    rw [h.tidy.count_targets_of_not_has hn hnone, if_neg (by omega), List.count_eq_zero] at hzero
    exact hzero hk
  have hperm := Key.sort_perm (release p (targets n)).2
  have hhas : ∀ k ∈ Key.sort (release p (targets n)).2, g.Has k :=
    fun k hk => hfree k (hperm.mem_iff.mp hk)
  obtain ⟨next, hnext, hkeys, htable⟩ := h.resolveAll n.key hhas
  have hmem : ∀ {k m}, g.find? k = some m →
      (k ∈ next.map (·.key) ↔ 1 ≤ g.ahead V m ∧ g.ahead (V ++ [n.key]) m = 0) := by
    intro k m hm
    rw [hkeys, hperm.mem_iff, ← List.count_pos_iff, hcount hm]
    split <;> simp_all
  have hlist : V ++ [n.key] ++ (queue ++ next).map (·.key) =
      (V ++ (n :: queue).map (·.key)) ++ next.map (·.key) := by
    simp
  refine ⟨next, hnext, ?_⟩
  exact
    { nodup := by
        rw [hlist, List.nodup_append]
        refine ⟨hw.nodup, ?_, ?_⟩
        · rw [hkeys, hperm.nodup_iff, List.nodup_iff_count]
          intro k
          by_cases hk : k ∈ (release p (targets n)).2
          · obtain ⟨m, hm⟩ := (hfree k hk).exists
            rw [hcount hm]
            split <;> omega
          · rw [List.count_eq_zero_of_not_mem hk]
            omega
        · rintro a ha b hb rfl
          obtain ⟨m, hm⟩ := (hfree a (hperm.mem_iff.mp (hkeys ▸ hb))).exists
          have := (hw.queued hm).mp ha
          have := ((hmem hm).mp hb).1
          omega
      has := by
        intro k hk
        rcases List.mem_append.mp hk with hk | hk
        · exact hw.has k hk
        · rw [List.mem_singleton.mp hk]
          exact has_of_find? hn
      table := by
        intro m hm
        rcases List.mem_append.mp hm with hm | hm
        · exact hw.table m (List.mem_cons_of_mem _ hm)
        · exact htable m hm
      pending := by
        intro k m hm
        have hkey := key_of_find? hm
        rw [(release_spec p (targets n) k).1, hw.pending hm, ← hkey,
          h.tidy.count_targets hn (hkey ▸ hm)]
        have := ahead_append (g := g) hnot m
        omega
      queued := by
        intro k m hm
        rw [hlist, List.mem_append, hw.queued hm, hmem hm]
        have := ahead_append (g := g) hnot m
        omega
      forward := by
        intro r a b hb hab
        obtain ⟨m, hm, hmem⟩ := hab
        rcases List.mem_append.mp hb with hb | hb
        · obtain ⟨hbefore, hout⟩ := hw.forward hb ⟨m, hm, hmem⟩
          exact ⟨(before_append_of_mem hb).mpr hbefore, hout⟩
        · rw [List.mem_singleton] at hb
          subst hb
          rw [hn] at hm
          cases hm
          have hzero := (hw.queued hn).mp (List.mem_append_right _ List.mem_cons_self)
          obtain ⟨ha, hout⟩ := ahead_eq_zero.mp hzero _ hmem
          exact ⟨before_append.mpr (Or.inr ⟨hnot, Or.inl ⟨ha, List.mem_singleton_self _⟩⟩), hout⟩ }

/-- The table bounds the number of nodes that were visited. -/
theorem length_le_of_has {V : List Key} (hnodup : V.Nodup) (hhas : ∀ k ∈ V, g.Has k) :
    V.length ≤ g.nodes.length := by
  have hlength : (g.nodes.map (·.key)).length = g.nodes.length := List.length_map _
  rw [← hlength]
  refine hnodup.length_le_of_subset fun k hk => ?_
  obtain ⟨n, hn⟩ := (hhas k hk).exists
  exact List.mem_map.mpr ⟨n, mem_of_find? hn, key_of_find? hn⟩

/-- A turn of the walk, and then the others. -/
theorem walk_cons {n : Nat} {p : Pending} {m : Node} {queue next rest : List Node}
    {e : Option Error} (hnext : g.resolveAll m.key (Key.sort (release p (targets m)).2) = .ok next)
    (hrest : g.walk n (release p (targets m)).1 (queue ++ next) = (rest, e)) :
    g.walk (n + 1) p (m :: queue) = (m :: rest, e) := by
  rw [walk]
  dsimp only
  rw [hnext]
  dsimp only
  rw [hrest]

/-- **A whole walk**: it ends with an empty queue, and the table bounds the number of its turns. -/
theorem Walks.run (h : g.Formed) {n : Nat} {V : List Key} {p : Pending} {queue : List Node}
    (hw : Walks g V p queue) (hfuel : g.nodes.length < V.length + n) :
    ∃ W p', g.walk n p queue = (W, none) ∧ (∀ m ∈ W, g.find? m.key = some m) ∧
      Walks g (V ++ W.map (·.key)) p' [] := by
  induction n generalizing V p queue with
  | zero =>
    have hle := length_le_of_has (List.nodup_append.mp hw.nodup).1 hw.has
    omega
  | succ _ ih =>
    cases queue with
    | nil => exact ⟨[], p, rfl, by simp, by simpa using hw⟩
    | cons n queue =>
      obtain ⟨next, hnext, hstep⟩ := hw.step h
      obtain ⟨W, p', hW, htable, hend⟩ := ih hstep (by simp; omega)
      refine ⟨n :: W, p', walk_cons hnext hW, ?_, by simpa using hend⟩
      · intro m hm
        rcases List.mem_cons.mp hm with rfl | hm
        · exact hw.table m List.mem_cons_self
        · exact htable m hm

/-! ### What is visited -/

/-- Nodes in an order that keeps all edges forward, such that whatever has all its causes among them
is among them. -/
structure Visited (g : Graph) (W : List Node) : Prop where
  nodup : (W.map (·.key)).Nodup
  table : ∀ n ∈ W, g.find? n.key = some n
  forward : ∀ {r a b}, b ∈ W.map (·.key) → g.In r a b → Before (W.map (·.key)) a b ∧ g.Out r a b
  complete : ∀ {b}, g.Has b → (∀ r a, g.In r a b → a ∈ W.map (·.key) ∧ g.Out r a b) →
    b ∈ W.map (·.key)

/-- What has an edge to a visited node is visited before it. -/
theorem Visited.mem_done {done more : List Node} {m : Node} (hv : Visited g (done ++ m :: more))
    {r : Relation} {a : Key}
    (hin : g.In r a m.key) : a ∈ done.map (·.key) := by
  have hnodup := hv.nodup
  have hbefore :=
    (hv.forward (List.mem_map_of_mem (List.mem_append_right _ List.mem_cons_self)) hin).1
  rw [List.map_append, List.map_cons] at hbefore hnodup
  have hnone : m.key ∉ done.map (·.key) := fun hmem =>
    (List.nodup_append.mp hnodup).2.2 _ hmem _ List.mem_cons_self rfl
  rcases before_append.mp hbefore with hb | ⟨-, ⟨hmem, -⟩ | ⟨-, hb⟩⟩
  · exact absurd hb.right_mem hnone
  · exact hmem
  · exact absurd rfl (before_cons.mp hb).1

/-- The edges of a graph do not run in a cycle: they go up in some numbering. -/
def Ranked (g : Graph) (rank : Key → Nat) : Prop := ∀ r a b, g.In r a b → rank a < rank b

theorem lookup_map_events {f : Node → Int} {ks : List Key} {k : Key} {n : Node}
    (hn : g.find? k = some n) (hk : k ∈ ks) :
    ((ks.filterMap g.find?).map fun n => (n.key, f n)).lookup k = some (f n) := by
  induction ks with
  | nil => exact absurd hk List.not_mem_nil
  | cons a ks ih =>
    by_cases ha : k = a
    · subst ha
      have hkey := key_of_find? hn
      rw [List.filterMap_cons_some hn, List.map_cons, List.lookup_cons, hkey, beq_self_eq_true]
    · have ih := ih ((List.mem_cons.mp hk).resolve_left ha)
      cases hfind : g.find? a with
      | none => rw [List.filterMap_cons_none hfind, ih]
      | some m =>
        have hkey := key_of_find? hfind
        rw [List.filterMap_cons_some hfind, List.map_cons, List.lookup_cons, hkey,
          beq_eq_false_iff_ne.mpr ha, ih]

theorem left_pending_of_mem {k : Key} {n : Node} (hk : k ∈ g.order) (hn : g.find? k = some n) :
    left g.pending k = (n.pred.length : Int) := by
  unfold left pending events
  rw [lookup_map_events (f := fun n => (n.pred.length : Int)) hn hk]
  rfl

theorem Formed.left_pending (h : g.Formed) {k : Key} {n : Node} (hn : g.find? k = some n) :
    left g.pending k = (n.pred.length : Int) := by
  rcases h.has_iff.mp (has_of_find? hn) with hk | ⟨hlabel, -⟩
  · exact left_pending_of_mem hk hn
  · have hnone :
        ((g.order.filterMap g.find?).map fun n => (n.key, (n.pred.length : Int))).lookup k =
          none := by
      rw [List.lookup_eq_none_iff]
      intro e he
      obtain ⟨m, hm, rfl⟩ := List.mem_map.mp he
      obtain ⟨a, ha, hfind⟩ := List.mem_filterMap.mp hm
      have hkey := key_of_find? hfind
      rw [bne_iff_ne]
      rintro rfl
      rw [hkey, h.not_label ha] at hlabel
      exact Bool.false_ne_true hlabel
    rw [left, pending, events, hnone, h.label_pred hn hlabel]
    rfl

theorem Formed.walks (h : g.Formed) {n : Node} (hn : g.find? .init = some n) :
    Walks g [] g.pending [n] := by
  have hkey := key_of_find? hn
  have hlength : ∀ n : Node, g.ahead [] n = n.pred.length := by
    intro n
    simp [ahead]
  refine ⟨by simp, by simp, ?_, ?_, ?_, by simp⟩
  · intro m hm
    rw [List.mem_singleton] at hm
    rw [hm, hkey, hn]
  · intro k m hm
    rw [h.left_pending hm, hlength]
  · intro k m hm
    rw [hlength, List.length_eq_zero_iff, List.nil_append, List.map_singleton,
      List.mem_singleton, hkey]
    constructor
    · rintro rfl
      rw [List.eq_nil_iff_forall_not_mem]
      exact fun e he => h.no_cause ⟨m, hm, he⟩
    · intro hnil
      refine Classical.byContradiction fun hne => ?_
      obtain ⟨r, a, m', hm', hmem⟩ := h.caused (has_of_find? hm) hne
      rw [hm] at hm'
      cases hm'
      rw [hnil] at hmem
      exact List.not_mem_nil hmem

theorem Walks.visited {W : List Node} {p : Pending} (htable : ∀ n ∈ W, g.find? n.key = some n)
    (hw : Walks g (W.map (·.key)) p []) : Visited g W := by
  have hnodup := hw.nodup
  rw [List.map_nil, List.append_nil] at hnodup
  refine ⟨hnodup, htable, hw.forward, fun {b} hb hall => ?_⟩
  obtain ⟨n, hn⟩ := hb.exists
  have hqueued := hw.queued hn
  rw [List.map_nil, List.append_nil] at hqueued
  have hkey := key_of_find? hn
  refine hqueued.mpr (ahead_eq_zero.mpr fun e he => ?_)
  rw [hkey]
  exact hall e.1 e.2 ((in_iff hn).mpr he)

namespace Visited

variable {W : List Node} (hv : Visited g W)
include hv

/-- Without a cycle everything is visited. -/
theorem mem_of_ranked {rank : Key → Nat} (hrank : g.Ranked rank) (hg : g.Mirrored) {b : Key}
    (hb : g.Has b) : b ∈ W.map (·.key) := by
  induction hn : rank b using Nat.strong_induction_on generalizing b with
  | _ n ih =>
    refine hv.complete hb fun r a hab =>
      ⟨ih _ (hn ▸ hrank r a b hab) (has_of_out (hg r a b hab)) rfl, hg r a b hab⟩

theorem mem_filter_isEvent (h : g.Formed) {k : Key} :
    k ∈ (W.filter isEvent).map (·.key) ↔ k ∈ W.map (·.key) ∧ k ∈ g.order := by
  simp only [List.mem_map, List.mem_filter]
  constructor
  · rintro ⟨n, ⟨hn, hevent⟩, rfl⟩
    exact ⟨⟨n, hn, rfl⟩, (h.isEvent_iff (hv.table n hn)).mp hevent⟩
  · rintro ⟨⟨n, hn, rfl⟩, hk⟩
    exact ⟨n, ⟨hn, (h.isEvent_iff (hv.table n hn)).mpr hk⟩, rfl⟩

theorem nodup_filter_isEvent : ((W.filter isEvent).map (·.key)).Nodup :=
  hv.nodup.sublist (List.filter_sublist.map _)

/-- The number of visited events tells whether all are visited. -/
theorem length_eq_iff (h : g.Formed) :
    (W.filter isEvent).length = g.size ↔ ∀ k ∈ g.order, k ∈ W.map (·.key) := by
  have hsub : (W.filter isEvent).map (·.key) ⊆ g.order :=
    fun k hk => ((hv.mem_filter_isEvent h).mp hk).2
  rw [← List.length_map (·.key), size]
  constructor
  · intro heq k hk
    have hperm :=
      (List.Nodup.subperm hv.nodup_filter_isEvent hsub).perm_of_length_le (Nat.le_of_eq heq.symm)
    exact ((hv.mem_filter_isEvent h).mp (hperm.mem_iff.mpr hk)).1
  · intro hall
    refine Nat.le_antisymm (hv.nodup_filter_isEvent.length_le_of_subset hsub) ?_
    exact h.nodup.length_le_of_subset fun k hk => (hv.mem_filter_isEvent h).mpr ⟨hall k hk, hk⟩

end Visited

/-- **The walk visits nodes in order**, and its complaint is that of a cycle. -/
theorem Formed.visit (h : g.Formed) :
    ∃ W, Visited g W ∧ g.visit = (W, if (W.filter isEvent).length = g.size then none
      else some (.cycle (W.filter isEvent).length g.size)) := by
  obtain ⟨n, hn⟩ := h.find? h.init_mem
  obtain ⟨W, p, hW, htable, hend⟩ := (h.walks hn).run (n := g.nodes.length + 2) h (by simp)
  rw [List.nil_append] at hend
  refine ⟨W, hend.visited htable, ?_⟩
  unfold Graph.visit
  rw [h.first, Option.bind_some, hn]
  dsimp only
  rw [hW]

/-- **A walk without a complaint has visited all events.** -/
theorem Formed.visited_of_visit (h : g.Formed) {W : List Node} (hvisit : g.visit = (W, none)) :
    Visited g W ∧ ∀ k ∈ g.order, k ∈ W.map (·.key) := by
  obtain ⟨W', hv, heq⟩ := h.visit
  rw [heq, Prod.mk.injEq] at hvisit
  obtain ⟨rfl, hnone⟩ := hvisit
  refine ⟨hv, (hv.length_eq_iff h).mp (Classical.byContradiction fun hne => ?_)⟩
  rw [if_neg hne] at hnone
  cases hnone

/-- **Without a cycle the walk visits every node.** -/
theorem Formed.visit_of_ranked (h : g.Formed) (hm : g.Mirrored) {rank : Key → Nat}
    (hrank : g.Ranked rank) :
    ∃ W, Visited g W ∧ g.visit = (W, none) ∧ ∀ k, g.Has k → k ∈ W.map (·.key) := by
  obtain ⟨W, hv, hvisit⟩ := h.visit
  have hall : ∀ k, g.Has k → k ∈ W.map (·.key) := fun k hk => hv.mem_of_ranked hrank hm hk
  refine ⟨W, hv, ?_, hall⟩
  rw [hvisit, if_pos ((hv.length_eq_iff h).mpr fun k hk => hall k (h.has_iff.mpr (Or.inl hk)))]

/-- The events of a graph in an order that keeps all edges forward. -/
structure Sorted (g : Graph) (ns : List Node) : Prop where
  nodup : (ns.map (·.key)).Nodup
  mem : ∀ {k}, k ∈ ns.map (·.key) ↔ k ∈ g.order
  table : ∀ n ∈ ns, g.find? n.key = some n
  forward : ∀ {r a b}, b ∈ g.order → g.In r a b → Before (ns.map (·.key)) a b ∧ g.Out r a b

/-- The events that were visited are in order if they are all. -/
theorem Visited.sorted {W : List Node} (hv : Visited g W) (h : g.Formed)
    (hall : ∀ k ∈ g.order, k ∈ W.map (·.key)) : Sorted g (W.filter isEvent) := by
  refine ⟨hv.nodup_filter_isEvent, fun {k} => ?_,
    fun n hn => hv.table n (List.mem_of_mem_filter hn), ?_⟩
  · rw [hv.mem_filter_isEvent h]
    exact ⟨fun hk => hk.2, fun hk => ⟨hall k hk, hk⟩⟩
  · intro r a b hb hab
    have hfilter : (W.filter isEvent).map (·.key) =
        (W.map (·.key)).filter fun k => decide (k ∈ g.order) := by
      rw [List.filter_map]
      congr 1
      refine List.filter_congr fun n hn => ?_
      rw [Function.comp_apply, Bool.eq_iff_iff, decide_eq_true_eq]
      exact h.isEvent_iff (hv.table n hn)
    obtain ⟨hbefore, hout⟩ := hv.forward (hall b hb) hab
    have ha : a ∈ g.order := (h.has_iff.mp (has_of_out hout)).resolve_right fun hlabel =>
      h.label_succ hlabel.1 hab
    rw [hfilter, before_filter, decide_eq_true_eq, decide_eq_true_eq]
    exact ⟨⟨ha, hb, hbefore⟩, hout⟩

/-- **A topological order keeps all edges forward.** -/
theorem Formed.sorted_of_topologicalOrder (h : g.Formed) {ns : List Node}
    (hns : g.topologicalOrder = .ok ns) : Sorted g ns := by
  unfold topologicalOrder at hns
  split at hns
  · cases hns
  · rename_i W hvisit
    cases hns
    obtain ⟨hv, hall⟩ := h.visited_of_visit hvisit
    exact hv.sorted h hall

/-- **Topological order**: the result is one, or the edges run in a cycle and the complaint says
so. -/
theorem Formed.topologicalOrder_cases (h : g.Formed) (hm : g.Mirrored) :
    (∃ ns, g.topologicalOrder = .ok ns ∧ Sorted g ns) ∨
      (∃ i j, g.topologicalOrder = .error (.cycle i j)) ∧ ∀ rank, ¬g.Ranked rank := by
  obtain ⟨W, hv, hvisit⟩ := h.visit
  by_cases hsize : (W.filter isEvent).length = g.size
  · rw [if_pos hsize] at hvisit
    refine Or.inl ⟨W.filter isEvent, ?_, hv.sorted h ((hv.length_eq_iff h).mp hsize)⟩
    unfold topologicalOrder
    rw [hvisit]
  · rw [if_neg hsize] at hvisit
    refine Or.inr ⟨⟨_, _, by unfold topologicalOrder; rw [hvisit]⟩, fun rank hrank => ?_⟩
    refine hsize ((hv.length_eq_iff h).mpr fun k hk => ?_)
    exact hv.mem_of_ranked hrank hm (h.has_iff.mpr (Or.inl hk))

end Graph

end Interleaving
