import Interleaving.Proofs.Graph.Shape

/-!
# Copies of a graph

A proposal is tried on a copy of the graph. A copy keeps the events with their clocks and the edges
between them; **blocking labels and the edges to them are left out**
(`Interleaving.Graph.Shaped.find?_copy`). What is left has the shape of a graph again
(`Interleaving.Graph.Shaped.copy`), and no task of it is blocked.
-/

namespace Interleaving.Graph

variable {g : Graph} {a b k : Key} {r : Relation} {t n : Nat}

/-! ### Cutting labels off -/

/-- The node that a label of a task stands after. -/
def beforeLabel (g : Graph) (ks : List Key) (label : Key) : Key :=
  ((ks.takeWhile fun k => k != label).filter fun k => !g.isLabel k).getLast?.getD .init

/-- The edges that a copy leaves out: from the node before a label to the label. -/
def cuts (g : Graph) : List (Key × Key) :=
  g.tasks.flatMap fun ks => (ks.filter g.isLabel).map fun label => (g.beforeLabel ks label, label)

/-- Forgets a program-order edge where it starts. -/
def cut (g : Graph) (c : Key × Key) : Graph :=
  g.modifyNode c.1 fun n => { n with succ := n.succ.erase .programOrder c.2 }

/-- A copy lists the nodes but labels, cut off from them. -/
theorem nodes_copy (g : Graph) :
    g.copy.nodes = (g.cuts.foldl cut g).nodes.filter fun n =>
      !(g.tasks.flatten.filter g.isLabel).contains n.key := by
  unfold copy cuts
  rw [List.foldl_flatMap]
  simp only [List.foldl_map]
  rfl

/-- What is left of the edges of a node after some cuts. -/
def keptEdges (cs : List (Key × Key)) (k : Key) (es : Edges) : Edges :=
  es.filter fun e => !(decide (e.1 = .programOrder) && cs.contains (k, e.2))

/-- Cutting labels off takes away edges and nothing else. -/
theorem find?_foldl_cut (cs : List (Key × Key)) :
    (cs.foldl cut g).find? k = (g.find? k).map fun n =>
      { n with succ := keptEdges cs k n.succ } := by
  induction cs generalizing g with
  | nil =>
    cases hfind : g.find? k with
    | none => simp [hfind]
    | some n => simp [hfind, keptEdges]
  | cons c cs ih =>
    rw [List.foldl_cons, ih, cut, find?_modifyNode (by exact fun _ => rfl), Option.map_map]
    congr 1
    funext n
    by_cases hk : k = c.1
    · have hedges : keptEdges cs k (n.succ.erase .programOrder c.2) =
          keptEdges (c :: cs) k n.succ := by
        unfold keptEdges Edges.erase
        rw [List.filter_filter]
        refine List.filter_congr fun e _ => ?_
        obtain ⟨r, b⟩ := e
        obtain ⟨a, d⟩ := c
        subst hk
        by_cases hr : r = .programOrder
        · by_cases hb : b = d
          · simp [hr, hb]
          · simp [hr, hb]
        · simp [hr]
      simp only [Function.comp_apply, if_pos hk, hedges]
    · have hedges : keptEdges cs k n.succ = keptEdges (c :: cs) k n.succ := by
        unfold keptEdges
        refine List.filter_congr fun e _ => ?_
        have hne : ¬(k, e.2) = c := fun heq => hk (by rw [← heq])
        simp [hne]
      simp only [Function.comp_apply, if_neg hk, hedges]

theorem keys_foldl_cut (cs : List (Key × Key)) :
    (cs.foldl cut g).nodes.map (·.key) = g.nodes.map (·.key) := by
  induction cs generalizing g with
  | nil => rfl
  | cons c cs ih => rw [List.foldl_cons, ih, cut, keys_modifyNode (by exact fun _ => rfl)]

/-! ### The table of a copy -/

/-- Looking a key up among nodes that are selected by their keys. -/
theorem find?_filter_key (p : Key → Bool) (ns : List Node) (k : Key) :
    (ns.filter fun n => p n.key).find? (fun n => n.key == k) =
      if p k then ns.find? (fun n => n.key == k) else none := by
  induction ns with
  | nil => simp
  | cons m ms ih =>
    by_cases hkey : m.key = k
    · subst hkey
      by_cases hp : p m.key = true
      · simp [hp]
      · rw [List.filter_cons_of_neg (by exact hp), ih, if_neg hp, if_neg hp]
    · rw [List.find?_cons_of_neg (by simpa using hkey), ← ih]
      by_cases hp : p m.key = true
      · rw [List.filter_cons_of_pos (by exact hp), List.find?_cons_of_neg (by simpa using hkey)]
      · rw [List.filter_cons_of_neg (by exact hp)]

/-! ### The lists of tasks -/

theorem taskKeys_mem (hne : g.taskKeys t ≠ []) : g.taskKeys t ∈ g.tasks := by
  unfold taskKeys at hne ⊢
  rw [if_pos (Int.natCast_nonneg t), Int.toNat_natCast] at hne ⊢
  cases hget : g.tasks[t]? with
  | none =>
    rw [hget] at hne
    exact absurd rfl hne
  | some ks => exact List.mem_of_getElem? hget

/-- Every list of a graph is that of a task. -/
theorem exists_taskKeys {ks : List Key} (hks : ks ∈ g.tasks) : ∃ t : Nat, g.taskKeys t = ks := by
  obtain ⟨t, ht, rfl⟩ := List.mem_iff_getElem.mp hks
  refine ⟨t, ?_⟩
  unfold taskKeys
  rw [if_pos (Int.natCast_nonneg t), Int.toNat_natCast, List.getElem?_eq_getElem ht]
  rfl

/-- What stands before a label at the end of a task. -/
theorem beforeLabel_eq (hkept : (places t n).filter (fun k => !g.isLabel k) = places t n) :
    g.beforeLabel (places t (n + 1)) (.place t n) = .prior t n := by
  have htake : (places t (n + 1)).takeWhile (fun k => k != .place t n) = places t n := by
    rw [places_succ, List.takeWhile_append_of_pos, List.takeWhile_cons_of_neg (by simp),
      List.append_nil]
    intro k hk
    obtain ⟨i, hi, rfl⟩ := mem_places.mp hk
    rw [bne_iff_ne, ne_eq, Key.place_inj]
    omega
  unfold beforeLabel
  rw [htake, hkept]
  cases n with
  | zero => rfl
  | succ n =>
    rw [places_succ, List.getLast?_concat]
    rfl

/-- A label at the end of a task is cut off. -/
theorem mem_cuts_of_label
    (hkeys : g.taskKeys t = places t (n + 1)) (hlabel : g.isLabel (.place t n) = true)
    (hkept : (places t n).filter (fun k => !g.isLabel k) = places t n) :
    (.prior t n, .place t n) ∈ g.cuts := by
  have hmem : places t (n + 1) ∈ g.tasks := hkeys ▸ taskKeys_mem (by rw [hkeys, places_succ]; simp)
  refine List.mem_flatMap.mpr
    ⟨_, hmem, List.mem_map.mpr ⟨.place t n, List.mem_filter.mpr ⟨?_, hlabel⟩, ?_⟩⟩
  · exact mem_places.mpr ⟨n, Nat.lt_succ_self n, rfl⟩
  · rw [beforeLabel_eq hkept]

namespace Shaped

variable (h : g.Shaped)
include h

/-- A task is made of its events, or of its events and a label behind them. -/
theorem task_cases {ks : List Key} (hks : ks ∈ g.tasks) :
    ∃ t n : Nat, g.Fills t n ∧
      (ks = places t n ∨ ks = places t (n + 1) ∧ g.isLabel (.place t n) = true ∧
        g.taskKeys t = places t (n + 1)) := by
  obtain ⟨t, rfl⟩ := exists_taskKeys hks
  obtain ⟨n, hn, htask⟩ := h.tasks t
  exact ⟨t, n, hn, htask.imp_right fun heq => ⟨heq.1, heq.2, heq.1⟩⟩

/-- No event is a label. -/
theorem not_isLabel_of_mem_places (hn : g.Fills t n) (hk : k ∈ places t n) :
    g.isLabel k = false := by
  obtain ⟨i, hi, rfl⟩ := mem_places.mp hk
  exact h.isLabel_of_mem ((hn i).mpr hi)

theorem filter_isLabel_places (hn : g.Fills t n) : (places t n).filter g.isLabel = [] := by
  refine List.filter_eq_nil_iff.mpr fun k hk => ?_
  rw [h.not_isLabel_of_mem_places hn hk]
  exact Bool.false_ne_true

theorem filter_not_isLabel_places (hn : g.Fills t n) :
    (places t n).filter (fun k => !g.isLabel k) = places t n := by
  refine List.filter_eq_self.mpr fun k hk => ?_
  rw [h.not_isLabel_of_mem_places hn hk]
  rfl

/-- A label is cut off from the event in front of it. -/
theorem beforeLabel_places (hn : g.Fills t n) :
    g.beforeLabel (places t (n + 1)) (.place t n) = .prior t n :=
  beforeLabel_eq (h.filter_not_isLabel_places hn)

/-- A label is cut off from the last event of its task. -/
theorem mem_cuts {c : Key × Key} :
    c ∈ g.cuts ↔ ∃ t n : Nat, g.taskKeys t = places t (n + 1) ∧ g.isLabel (.place t n) = true ∧
      c = (.prior t n, .place t n) := by
  unfold cuts
  rw [List.mem_flatMap]
  constructor
  · rintro ⟨ks, hks, hmem⟩
    obtain ⟨label, hlabel, rfl⟩ := List.mem_map.mp hmem
    obtain ⟨t, n, hn, rfl | ⟨rfl, hlab, hkeys⟩⟩ := h.task_cases hks
    · rw [h.filter_isLabel_places hn] at hlabel
      exact absurd hlabel List.not_mem_nil
    · rw [places_succ, List.filter_append, h.filter_isLabel_places hn, List.nil_append,
        List.filter_cons_of_pos hlab, List.filter_nil, List.mem_singleton] at hlabel
      subst hlabel
      exact ⟨t, n, hkeys, hlab, by rw [h.beforeLabel_places hn]⟩
  · rintro ⟨t, n, hkeys, hlab, rfl⟩
    obtain ⟨m, hm, htask⟩ := h.tasks t
    have hnm : m = n := by
      rcases htask with heq | ⟨heq, -⟩
      · rw [hkeys] at heq
        have hlen := congrArg List.length heq
        rw [length_places, length_places] at hlen
        have hin := (hm n).mpr (by omega)
        rw [h.isLabel_of_mem hin] at hlab
        cases hlab
      · rw [hkeys] at heq
        have hlen := congrArg List.length heq
        rw [length_places, length_places] at hlen
        omega
    subst hnm
    exact List.mem_flatMap.mp (mem_cuts_of_label hkeys hlab (h.filter_not_isLabel_places hm))

/-- The labels that stand in tasks are all labels. -/
theorem mem_labels : k ∈ g.tasks.flatten.filter g.isLabel ↔ g.isLabel k = true := by
  rw [List.mem_filter]
  refine and_iff_right_of_imp fun hk => ?_
  obtain ⟨t, n, rfl, hkeys⟩ := h.label hk
  have hmem := taskKeys_mem (g := g) (t := t) (by rw [hkeys, places_succ]; simp)
  exact List.mem_flatten.mpr ⟨_, hmem, hkeys ▸ mem_places.mpr ⟨n, Nat.lt_succ_self n, rfl⟩⟩

/-- The edges of a node that are left are those to events. -/
theorem keptEdges_cuts {m : Node} (hm : g.find? k = some m) :
    keptEdges g.cuts k m.succ = m.succ.filter fun e => !g.isLabel e.2 := by
  refine List.filter_congr fun e he => ?_
  obtain ⟨r, b⟩ := e
  have hin := h.tidy.known ⟨m, hm, he⟩
  rw [Bool.eq_iff_iff]
  simp only [Bool.not_eq_true', ← Bool.not_eq_true, Bool.and_eq_true, decide_eq_true_eq,
    List.contains_iff_mem, h.mem_cuts, Prod.mk.injEq]
  refine not_congr ⟨?_, fun hb => ?_⟩
  · rintro ⟨-, t, n, -, hlab, -, rfl⟩
    exact hlab
  · obtain ⟨t, n, rfl, hkeys⟩ := h.label hb
    obtain rfl := h.label_cause hb hin
    exact ⟨rfl, t, n, hkeys, hb, h.programOrder hin, rfl⟩

/-- **The table of a copy**: events, without their edges to labels. -/
theorem find?_copy (k : Key) :
    g.copy.find? k =
      if k ∈ g.order then
        (g.find? k).map fun n => { n with succ := n.succ.filter fun e => !g.isLabel e.2 }
      else none := by
  have hfilter : g.copy.find? k =
      if !(g.tasks.flatten.filter g.isLabel).contains k then (g.cuts.foldl cut g).find? k
          else none := by
    unfold Graph.find?
    rw [nodes_copy]
    exact find?_filter_key (fun k => !(g.tasks.flatten.filter g.isLabel).contains k) _ k
  rw [hfilter, find?_foldl_cut]
  cases hfind : g.find? k with
  | none => simp
  | some m =>
    have hcontains : (g.tasks.flatten.filter g.isLabel).contains k = g.isLabel k := by
      rw [Bool.eq_iff_iff, List.contains_iff_mem, h.mem_labels]
    rw [Option.map_some, h.keptEdges_cuts hfind, hcontains]
    by_cases hk : k ∈ g.order
    · rw [h.isLabel_of_mem hk, if_pos hk]
      rfl
    · rw [(h.mem_or_label (has_of_find? hfind)).resolve_left hk, if_neg hk]
      rfl

/-- **A copy has the events of the total order**, and no others. -/
theorem event?_copy : g.copy.event? k = if k ∈ g.order then g.event? k else none := by
  unfold Graph.event?
  rw [h.find?_copy]
  split
  · rw [Option.map_map]
    rfl
  · rfl

/-- A copy keeps the clocks of events. -/
theorem clockOf_copy (hk : k ∈ g.order) : g.copy.clockOf k = g.clockOf k := by
  unfold clockOf
  rw [h.find?_copy, if_pos hk, Option.map_map]
  rfl

theorem has_copy : g.copy.Has k ↔ k ∈ g.order := by
  rw [has_iff_event?, h.event?_copy]
  by_cases hk : k ∈ g.order
  · rw [if_pos hk, ← has_iff_event?]
    exact iff_of_true (h.has hk) hk
  · rw [if_neg hk]
    exact iff_of_false Bool.false_ne_true hk

/-- A copy keeps the edges to events. -/
theorem in_copy : g.copy.In r a b ↔ b ∈ g.order ∧ g.In r a b := by
  unfold In
  rw [h.find?_copy]
  by_cases hb : b ∈ g.order
  · simp [hb]
  · simp [hb]

/-- A copy keeps the edges between events. -/
theorem out_copy : g.copy.Out r a b ↔ a ∈ g.order ∧ b ∈ g.order ∧ g.Out r a b := by
  have htarget : g.Out r a b → (g.isLabel b = false ↔ b ∈ g.order) := by
    intro ho
    refine ⟨fun hb => (h.mem_or_label (h.tidy.has_target ho)).resolve_right ?_, h.isLabel_of_mem⟩
    rw [hb]
    exact Bool.false_ne_true
  unfold Out at htarget ⊢
  rw [h.find?_copy]
  by_cases ha : a ∈ g.order
  · rw [if_pos ha]
    simp only [Option.map_eq_some_iff, ha, true_and]
    constructor
    · rintro ⟨_, ⟨m, hm, rfl⟩, hmem⟩
      obtain ⟨hmem, hlabel⟩ := List.mem_filter.mp hmem
      exact ⟨(htarget ⟨m, hm, hmem⟩).mp (by simpa using hlabel), m, hm, hmem⟩
    · rintro ⟨hb, m, hm, hmem⟩
      refine ⟨_, ⟨m, hm, rfl⟩, List.mem_filter.mpr ⟨hmem, ?_⟩⟩
      rw [(htarget ⟨m, hm, hmem⟩).mpr hb]
      rfl
  · simp [ha]

/-- **A copy has no labels.** -/
theorem isLabel_copy (k : Key) : g.copy.isLabel k = false := by
  rw [← Bool.not_eq_true, isLabel_iff_event?]
  rintro ⟨e, he, hblock⟩
  rw [h.event?_copy] at he
  split at he
  · rename_i hk
    exact (h.mem_iff he).mp hk hblock
  · cases he

theorem taskKeys_copy (hn : g.Fills t n) : g.copy.taskKeys t = places t n := by
  have hkeys : g.copy.taskKeys t = (g.taskKeys t).filter fun k => !g.isLabel k := by
    show (if _ then ((g.tasks.map _)[_]?).getD [] else _) = _
    rw [taskKeys, if_pos (Int.natCast_nonneg t), if_pos (Int.natCast_nonneg t), List.getElem?_map]
    cases g.tasks[(t : Int).toNat]? with
    | none => rfl
    | some ks => rfl
  obtain ⟨m, hm, htask⟩ := h.tasks t
  obtain rfl := hn.unique hm
  rw [hkeys]
  rcases htask with heq | ⟨heq, hlab⟩
  · rw [heq, h.filter_not_isLabel_places hn]
  · rw [heq, places_succ, List.filter_append, h.filter_not_isLabel_places hn,
      List.filter_cons_of_neg (by simp [hlab]), List.filter_nil, List.append_nil]

/-- A copy is tidy. -/
theorem tidy_copy : g.copy.Tidy where
  keys := by
    have hkeys : ((g.cuts.foldl cut g).nodes.map (·.key)).Nodup := by
      rw [keys_foldl_cut]
      exact h.tidy.keys
    rw [nodes_copy]
    exact hkeys.sublist (List.filter_sublist.map _)
  known := by
    intro r a b ho
    obtain ⟨-, hb, ho⟩ := h.out_copy.mp ho
    exact h.in_copy.mpr ⟨hb, h.tidy.known ho⟩
  pred := by
    intro k m hm
    rw [h.find?_copy] at hm
    split at hm
    · obtain ⟨m', hm', rfl⟩ := Option.map_eq_some_iff.mp hm
      have hpred := h.tidy.pred hm'
      exact hpred
    · cases hm
  succ := by
    intro k m hm
    rw [h.find?_copy] at hm
    split at hm
    · obtain ⟨m', hm', rfl⟩ := Option.map_eq_some_iff.mp hm
      exact (h.tidy.succ hm').filter _
    · cases hm

/-- **A copy has the shape of a graph.** -/
theorem copy : g.copy.Shaped where
  tidy := h.tidy_copy
  nodup := h.nodup
  first := h.first
  has := fun hk => h.has_copy.mpr hk
  mem_iff := by
    intro k e he
    rw [h.event?_copy] at he
    split at he
    · rename_i hk
      exact iff_of_true hk ((h.mem_iff he).mp hk)
    · cases he
  key := h.key
  tasks := by
    intro t
    obtain ⟨n, hn, -⟩ := h.tasks t
    exact ⟨n, hn, Or.inl (h.taskKeys_copy hn)⟩
  label := by
    intro k hk
    rw [h.isLabel_copy] at hk
    cases hk
  label_cause := by
    intro r a k hk
    rw [h.isLabel_copy] at hk
    cases hk
  programOrder := fun hin => h.programOrder (h.in_copy.mp hin).2
  no_cause := fun hin => h.no_cause (h.in_copy.mp hin).2

end Shaped

end Interleaving.Graph
