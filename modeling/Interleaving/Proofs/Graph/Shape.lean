import Interleaving.Graph.Edit
import Interleaving.Proofs.Graph.Clocks

/-!
# The shape of a graph

The table of a graph holds the events of the total order, numbered through in every task, and the
blocking labels, of which a task has at most one, at its end (`Interleaving.Graph.Shaped`). Looking
up an event by its place is then looking it up in the table (`Interleaving.Graph.Shaped.node?`).

Changes of edges, clocks and chains keep the shape. **Adding an event** puts it at the end of its
task and of the total order, after the last event of the task and after the starts of the threads
that were spawned since (`Interleaving.Graph.Shaped.withEvent`).
-/

namespace Interleaving.Graph

variable {g g' : Graph} {a b k : Key} {r : Relation} {t n : Nat}

/-- The keys of the first events of a task. -/
def places (t n : Nat) : List Key := (List.range n).map (.place t)

/-- The places of a task are those below their number. -/
theorem mem_places : k ∈ places t n ↔ ∃ i < n, k = .place t i := by
  unfold places
  rw [List.mem_map]
  exact exists_congr fun i => by rw [List.mem_range]; exact and_congr_right fun _ => eq_comm

theorem places_succ (t n : Nat) : places t (n + 1) = places t n ++ [.place t n] := by
  unfold places
  rw [List.range_succ, List.map_append, List.map_singleton]

@[simp] theorem length_places (t n : Nat) : (places t n).length = n := by
  unfold places
  rw [List.length_map, List.length_range]

theorem getElem?_places {i : Nat} (h : i < n) : (places t n)[i]? = some (.place t i) := by
  unfold places
  rw [List.getElem?_map, List.getElem?_range h]
  rfl

/-- A task has `n` events. -/
def Fills (g : Graph) (t n : Nat) : Prop := ∀ i, .place t i ∈ g.order ↔ i < n

/-- A task is filled up to one place only. -/
theorem Fills.unique {m : Nat} (h : g.Fills t n) (h' : g.Fills t m) : n = m := by
  have h₁ := (h m).symm.trans (h' m)
  have h₂ := (h n).symm.trans (h' n)
  omega

/-- The next place of a task is not taken. -/
theorem Fills.ne_of_mem (hn : g.Fills t n) (hk : k ∈ g.order) : k ≠ .place t n := by
  rintro rfl
  exact Nat.lt_irrefl n ((hn n).mp hk)

/-- Every location that an event touches has a chain. -/
def Chained (g : Graph) : Prop :=
  ∀ {k e}, k ∈ g.order → g.event? k = some e → e.location ≠ .none →
    (g.chain? e.location).isSome = true

theorem Chained.congr (h : g.Chained) (horder : g'.order = g.order)
    (hevent : ∀ k, g'.event? k = g.event? k) (hchains : g'.chains = g.chains) : g'.Chained := by
  intro k e hk he hne
  rw [chain?, hchains]
  exact h (horder ▸ hk) ((hevent k).symm.trans he) hne

/-- A graph whose events are numbered through in every task, with a label at the end of some
tasks. -/
structure Shaped (g : Graph) : Prop where
  tidy : g.Tidy
  nodup : g.order.Nodup
  first : g.order.head? = some .init
  has : ∀ {k}, k ∈ g.order → g.Has k
  mem_iff : ∀ {k e}, g.event? k = some e → (k ∈ g.order ↔ e.kind ≠ .block)
  key : ∀ {k}, k ∈ g.order → k = .init ∨ ∃ t i : Nat, k = .place t i
  tasks : ∀ t : Nat, ∃ n, g.Fills t n ∧
    (g.taskKeys t = places t n ∨ g.taskKeys t = places t (n + 1) ∧ g.isLabel (.place t n) = true)
  label : ∀ {k}, g.isLabel k = true → ∃ t n : Nat, k = .place t n ∧ g.taskKeys t = places t (n + 1)
  label_cause : ∀ {r a k}, g.isLabel k = true → g.In r a k → r = .programOrder
  programOrder : ∀ {a} {t i : Nat}, g.In .programOrder a (.place t i) → a = .prior t i
  no_cause : ∀ {r a}, ¬g.In r a .init

/-- A label is an event of the kind of labels. -/
theorem isLabel_iff_event? : g.isLabel k = true ↔ ∃ e, g.event? k = some e ∧ e.kind = .block := by
  unfold isLabel kindOf? event?
  cases hk : g.find? k with
  | none => simp
  | some n => simp [Node.kind]

theorem kindOf?_eq_map : g.kindOf? k = (g.event? k).map (·.kind) := by
  unfold kindOf? event?
  rw [Option.map_map]
  rfl

/-- Kinds are those of events. -/
theorem kindOf?_congr (h : g'.event? k = g.event? k) : g'.kindOf? k = g.kindOf? k := by
  rw [kindOf?_eq_map, kindOf?_eq_map, h]

theorem has_iff_kindOf? : g.Has k ↔ (g.kindOf? k).isSome = true := by
  simp [Has, kindOf?]

/-- The last event of a task is the one before its next place. -/
theorem lastOf_eq (hn : g.taskKeys t = places t n) : g.lastOf t = .prior t n := by
  unfold lastOf
  rw [hn]
  cases n with
  | zero => rfl
  | succ n =>
    rw [places_succ, List.getLast?_concat]
    rfl

/-- A negative number is that of no task. -/
theorem taskKeys_of_neg {u : Int} (h : u < 0) : g.taskKeys u = [] := if_neg (by omega)

namespace Shaped

theorem init_mem (h : g.Shaped) : Key.init ∈ g.order := List.mem_of_mem_head? (by rw [h.first]; rfl)

/-- An event of the total order has a node. -/
theorem find? (h : g.Shaped) (hk : k ∈ g.order) : ∃ n, g.find? k = some n := (h.has hk).exists

theorem event? (h : g.Shaped) (hk : k ∈ g.order) : ∃ e, g.event? k = some e := by
  obtain ⟨n, hn⟩ := h.find? hk
  exact ⟨n.event, by rw [Graph.event?, hn]; rfl⟩

/-- The total order lists no labels. -/
theorem isLabel_of_mem (h : g.Shaped) (hk : k ∈ g.order) : g.isLabel k = false := by
  rw [← Bool.not_eq_true, isLabel_iff_event?]
  rintro ⟨e, he, hblock⟩
  exact (h.mem_iff he).mp hk hblock

/-- A node is in the total order unless it is a label. -/
theorem mem_or_label (h : g.Shaped) (hk : g.Has k) : k ∈ g.order ∨ g.isLabel k = true := by
  obtain ⟨n, hn⟩ := hk.exists
  have he : g.event? k = some n.event := by rw [Graph.event?, hn]; rfl
  by_cases hblock : n.event.kind = .block
  · exact Or.inr (isLabel_iff_event?.mpr ⟨_, he, hblock⟩)
  · exact Or.inl ((h.mem_iff he).mpr hblock)

/-- The events of a task that are there come before the ones that are not. -/
theorem mem_of_lt (h : g.Shaped) {i j : Nat} (hj : .place t j ∈ g.order) (hi : i < j) :
    .place t i ∈ g.order := by
  obtain ⟨n, hn, -⟩ := h.tasks t
  rw [hn] at hj ⊢
  omega

/-- The place of an event is less than the number of all events. -/
theorem place_lt (h : g.Shaped) {i : Nat} (hk : .place t i ∈ g.order) : i < g.order.length := by
  -- the events of the task up to this one are among those of the total order
  have hsub : places t (i + 1) ⊆ g.order := by
    intro k' hk'
    obtain ⟨j, hj, rfl⟩ := mem_places.mp hk'
    rcases Nat.lt_or_eq_of_le (Nat.le_of_lt_succ hj) with hlt | rfl
    · exact h.mem_of_lt hk hlt
    · exact hk
  have hnodup : (places t (i + 1)).Nodup :=
    List.nodup_range.map fun x y hxy => (Key.place_inj.mp hxy).2
  have hle := (List.subperm_of_subset hnodup hsub).length_le
  rw [length_places] at hle
  omega

/-- What comes before the next place of a task is an event. -/
theorem prior_mem (h : g.Shaped) (hn : g.Fills t n) : Key.prior t n ∈ g.order := by
  cases n with
  | zero => exact h.init_mem
  | succ n => exact (hn n).mpr (Nat.lt_succ_self n)

/-- A task is blocked when a label stands at its end. -/
theorem isBlocked_iff (h : g.Shaped) (hn : g.Fills t n) :
    g.isBlocked t = true ↔ g.taskKeys t = places t (n + 1) := by
  obtain ⟨m, hm, htasks⟩ := h.tasks t
  obtain rfl := hn.unique hm
  unfold isBlocked lastKind? lastOf hasNodes
  rcases htasks with hkeys | ⟨hkeys, hlabel⟩
  · rw [hkeys]
    refine iff_of_false ?_ fun heq => by simpa using congrArg List.length heq
    rw [Bool.and_eq_true, not_and]
    intro _ hkind
    cases n with
    | zero =>
      have hlab := h.isLabel_of_mem h.init_mem
      have hinit : g.isLabel .init = true := hkind
      rw [hlab] at hinit
      cases hinit
    | succ n =>
      have hlab := h.isLabel_of_mem ((hn n).mpr (Nat.lt_succ_self n))
      rw [places_succ, List.getLast?_concat, Option.getD_some] at hkind
      rw [isLabel, hkind] at hlab
      cases hlab
  · rw [hkeys, places_succ, List.getLast?_concat, Option.getD_some]
    refine iff_of_true ?_ rfl
    rw [Bool.and_eq_true]
    exact ⟨by simp, hlabel⟩

/-- A task that is not blocked consists of its events. -/
theorem taskKeys_of_not_blocked (h : g.Shaped) (hn : g.Fills t n) (hb : g.isBlocked t = false) :
    g.taskKeys t = places t n := by
  obtain ⟨m, hm, htasks⟩ := h.tasks t
  obtain rfl := hn.unique hm
  refine htasks.resolve_right fun hlabel => ?_
  rw [(h.isBlocked_iff hn).mpr hlabel.1] at hb
  cases hb

/-- A task that is not blocked has no label behind its last event. -/
theorem not_has (h : g.Shaped) (hn : g.Fills t n) (hkeys : g.taskKeys t = places t n) :
    ¬g.Has (.place t n) := by
  intro hhas
  obtain ⟨u, m, heq, hu⟩ :=
    h.label ((h.mem_or_label hhas).resolve_left fun hk => hn.ne_of_mem hk rfl)
  obtain ⟨rfl, rfl⟩ := Key.place_inj.mp heq
  rw [hkeys] at hu
  simpa using congrArg List.length hu

/-- The event that a key names is that of the table. -/
theorem node? (h : g.Shaped) (hk : k ∈ g.order) : g.node? k = g.find? k := by
  unfold Graph.node?
  rcases h.key hk with rfl | ⟨t, i, rfl⟩
  · rw [if_pos (show Key.init.isInit = true from rfl), h.first, Option.bind_some]
  · obtain ⟨n, hn, htasks⟩ := h.tasks t
    have hi := (hn i).mp hk
    rw [if_neg (by simp), if_pos (by simp [Key.place])]
    show (g.taskKeys (t : Int))[(i : Int).toNat]?.bind g.find? = _
    rw [Int.toNat_natCast]
    rcases htasks with hkeys | ⟨hkeys, -⟩
    · rw [hkeys, getElem?_places hi, Option.bind_some]
    · rw [hkeys, getElem?_places (Nat.lt_succ_of_lt hi), Option.bind_some]

theorem node (h : g.Shaped) (hk : k ∈ g.order) {m : Node} (hm : g.find? k = some m) :
    g.node k = .ok m := by
  unfold Graph.node
  rw [h.node? hk, hm]

theorem node_eq (h : g.Shaped) (hk : k ∈ g.order) {m : Node} (hm : g.node k = .ok m) :
    g.find? k = some m := by
  obtain ⟨n, hn⟩ := h.find? hk
  rw [h.node hk hn] at hm
  cases hm
  exact hn

/-- Where an edge starts that is known there, there is an event or a label; where it points to,
too. -/
theorem target_mem (h : g.Shaped) (ho : g.Out r a b) (hr : r ≠ .programOrder) : b ∈ g.order :=
  (h.mem_or_label (h.tidy.has_target ho)).resolve_right fun hlabel =>
    hr (h.label_cause hlabel (h.tidy.known ho))

/-! ### Changes that keep the events -/

/-- **A graph stays shaped** when events and kinds stay and new program order links neighbours. -/
theorem congr (h : g.Shaped) (tidy : g'.Tidy) (order : g'.order = g.order)
    (tasks : g'.tasks = g.tasks) (kind : ∀ k, g'.kindOf? k = g.kindOf? k)
    (edge : ∀ {r a b}, g'.In r a b → g.In r a b ∨
      b ∈ g.order ∧ b ≠ .init ∧ (r = .programOrder → ∃ t i, b = .place t i ∧ a = .prior t i)) :
      g'.Shaped := by
  have label : ∀ k, g'.isLabel k = g.isLabel k := fun k => by rw [isLabel, kind, ← isLabel]
  exact
    { tidy := tidy
      nodup := order ▸ h.nodup
      first := order ▸ h.first
      has := by
        intro k hk
        rw [has_iff_kindOf?, kind, ← has_iff_kindOf?]
        exact h.has (order ▸ hk)
      mem_iff := by
        intro k e he
        have hkind := kind k
        rw [kindOf?_eq_map, kindOf?_eq_map, he, Option.map_some] at hkind
        obtain ⟨e', he', heq⟩ := Option.map_eq_some_iff.mp hkind.symm
        rw [order, ← heq]
        exact h.mem_iff he'
      key := order ▸ h.key
      tasks := by
        intro t
        unfold Fills taskKeys
        simp only [label, tasks, order]
        exact h.tasks t
      label := by
        intro k hk
        unfold taskKeys
        rw [tasks]
        exact h.label (label k ▸ hk)
      label_cause := by
        intro r a k hk hin
        rw [label] at hk
        rcases edge hin with hin | ⟨hmem, -, -⟩
        · exact h.label_cause hk hin
        · rw [h.isLabel_of_mem hmem] at hk
          cases hk
      programOrder := by
        intro a t i hin
        rcases edge hin with hin | ⟨-, -, hpo⟩
        · exact h.programOrder hin
        · obtain ⟨t', i', heq, rfl⟩ := hpo rfl
          obtain ⟨rfl, rfl⟩ := Key.place_inj.mp heq
          rfl
      no_cause := by
        intro r a hin
        rcases edge hin with hin | ⟨-, hne, -⟩
        · exact h.no_cause hin
        · exact hne rfl }

/-- An edge that is not one of program order can always be added. -/
theorem link (h : g.Shaped) (ha : g.Has a) (hb : b ∈ g.order) (hne : b ≠ .init)
    (hr : r = .programOrder → ∃ t i, b = .place t i ∧ a = .prior t i) : (g.link a b r).Shaped := by
  refine h.congr (h.tidy.link ha (h.has hb)) (link_order ..) (link_tasks ..)
    (fun _ => kindOf?_congr event?_link) ?_
  intro r' c d hin
  rcases (in_link (h.has hb)).mp hin with hin | ⟨rfl, rfl, rfl⟩
  · exact Or.inl hin
  · exact Or.inr ⟨hb, hne, hr⟩

/-- Taking an edge away does no harm. -/
theorem unlink (h : g.Shaped) : (g.unlink a b r).Shaped :=
  h.congr h.tidy.unlink rfl rfl (fun _ => kindOf?_congr event?_unlink) fun hin =>
    Or.inl (in_unlink.mp hin).1

/-- New clocks do no harm. -/
theorem of_reclocked (h : g.Shaped) (hr : Reclocked g g') : g'.Shaped :=
  h.congr (hr.tidy h.tidy) hr.order hr.tasks (fun _ => kindOf?_congr hr.event?) fun hin =>
    Or.inl (hr.in_iff.mp hin)

end Shaped

/-- Graphs with the same table. -/
theorem find?_of_nodes (hnodes : g'.nodes = g.nodes) (k : Key) : g'.find? k = g.find? k := by
  unfold Graph.find?
  rw [hnodes]

/-- Events are a matter of nodes. -/
theorem event?_of_nodes (hnodes : g'.nodes = g.nodes) (k : Key) : g'.event? k = g.event? k := by
  unfold event?
  rw [find?_of_nodes hnodes]

theorem clockOf_of_nodes (hnodes : g'.nodes = g.nodes) (k : Key) : g'.clockOf k = g.clockOf k := by
  unfold clockOf
  rw [find?_of_nodes hnodes]

/-- Edges are a matter of nodes. -/
theorem in_of_nodes (hnodes : g'.nodes = g.nodes) : g'.In r a b ↔ g.In r a b := by
  unfold In
  rw [find?_of_nodes hnodes]

theorem out_of_nodes (hnodes : g'.nodes = g.nodes) : g'.Out r a b ↔ g.Out r a b := by
  unfold Out
  rw [find?_of_nodes hnodes]

theorem tidy_of_nodes (hnodes : g'.nodes = g.nodes) (h : g.Tidy) : g'.Tidy where
  keys := hnodes ▸ h.keys
  known := by
    intro r a b ho
    rw [in_of_nodes hnodes]
    exact h.known ((out_of_nodes hnodes).mp ho)
  pred := fun hn => h.pred (find?_of_nodes hnodes _ ▸ hn)
  succ := fun hn => h.succ (find?_of_nodes hnodes _ ▸ hn)

/-- Changes outside the table, the total order and the tasks keep the shape. -/
theorem Shaped.of_nodes (h : g.Shaped) (hnodes : g'.nodes = g.nodes) (horder : g'.order = g.order)
    (htasks : g'.tasks = g.tasks) : g'.Shaped :=
  h.congr (tidy_of_nodes hnodes h.tidy) horder htasks
      (fun k => kindOf?_congr (event?_of_nodes hnodes k)) fun hin =>
    Or.inl ((in_of_nodes hnodes).mp hin)

/-- Chains do not matter to the shape of a graph. -/
theorem Shaped.setChain (h : g.Shaped) (loc : Location) (ks : List Key) :
    (g.setChain loc ks).Shaped :=
  h.of_nodes rfl rfl rfl

/-- Neither do the tasks that wait for locks. -/
theorem Shaped.setWaiting (h : g.Shaped) (loc : Location) (ts : List Int) :
    (g.setWaiting loc ts).Shaped :=
  h.of_nodes rfl rfl rfl

/-- Making room for a task adds no event to any task. -/
theorem taskKeys_ensureTask (g : Graph) (t u : Int) :
    (g.ensureTask t).taskKeys u = g.taskKeys u := by
  unfold taskKeys Graph.ensureTask
  split
  · rw [List.getElem?_append]
    split
    · rfl
    · rename_i hlt
      rw [List.getElem?_eq_none (l := g.tasks) (by omega), List.getElem?_replicate]
      split <;> rfl
  · rfl

theorem length_ensureTask (g : Graph) (t : Int) : t.toNat < (g.ensureTask t).tasks.length := by
  unfold Graph.ensureTask
  rw [List.length_append, List.length_replicate]
  omega

/-- Making room for a task keeps a graph shaped. -/
theorem Shaped.ensureTask (h : g.Shaped) (t : Int) : (g.ensureTask t).Shaped where
  tidy := tidy_of_nodes (g := g) rfl h.tidy
  nodup := h.nodup
  first := h.first
  has := h.has
  mem_iff := h.mem_iff
  key := h.key
  tasks := by
    intro u
    rw [taskKeys_ensureTask]
    exact h.tasks u
  label := by
    intro k hk
    obtain ⟨u, n, rfl, hkeys⟩ := h.label hk
    exact ⟨u, n, rfl, by rw [taskKeys_ensureTask]; exact hkeys⟩
  label_cause := h.label_cause
  programOrder := h.programOrder
  no_cause := h.no_cause

/-! ### Adding a node -/

/-- One more node, without edges. -/
structure Puts (g g' : Graph) (m : Node) : Prop where
  nodes : g'.nodes = g.nodes ++ [m]
  fresh : ¬g.Has m.key
  pred : m.pred = []
  succ : m.succ = []

namespace Puts

variable {m : Node} (h : Puts g g' m)
include h

/-- The new node is found, and the others are found as before. -/
theorem find? : g'.find? k = if k = m.key then some m else g.find? k := by
  unfold Graph.find?
  rw [h.nodes, List.find?_append, List.find?_singleton]
  by_cases hk : k = m.key
  · subst hk
    have hnone : g.nodes.find? (fun n => n.key == m.key) = none := by
      rw [← Option.not_isSome_iff_eq_none]
      exact h.fresh
    rw [hnone, if_pos rfl, if_pos (beq_self_eq_true _)]
    rfl
  · rw [if_neg hk, if_neg (by rw [beq_iff_eq]; exact Ne.symm hk), Option.or_none]

theorem clockOf : g'.clockOf k = if k = m.key then m.clock else g.clockOf k := by
  unfold Graph.clockOf
  rw [h.find?]
  split <;> rfl

/-- The new event is there, besides those that were there. -/
theorem event? : g'.event? k = if k = m.key then some m.event else g.event? k := by
  unfold Graph.event?
  rw [h.find?]
  split <;> rfl

theorem has_self : g'.Has m.key := by
  rw [Has, h.find?, if_pos rfl]
  rfl

theorem has (hk : g.Has k) : g'.Has k := by
  rw [Has, h.find?]
  split
  · rfl
  · exact hk

/-- A new node comes without incoming edges. -/
theorem in_iff : g'.In r a b ↔ g.In r a b := by
  unfold In
  rw [h.find?]
  by_cases hb : b = m.key
  · subst hb
    rw [if_pos rfl]
    constructor
    · rintro ⟨n, hn, hmem⟩
      cases hn
      rw [h.pred] at hmem
      exact absurd hmem List.not_mem_nil
    · rintro ⟨n, hn, -⟩
      exact absurd (has_of_find? hn) h.fresh
  · rw [if_neg hb]

/-- A new node comes without outgoing edges. -/
theorem out_iff : g'.Out r a b ↔ g.Out r a b := by
  unfold Out
  rw [h.find?]
  by_cases ha : a = m.key
  · subst ha
    rw [if_pos rfl]
    constructor
    · rintro ⟨n, hn, hmem⟩
      cases hn
      rw [h.succ] at hmem
      exact absurd hmem List.not_mem_nil
    · rintro ⟨n, hn, -⟩
      exact absurd (has_of_find? hn) h.fresh
  · rw [if_neg ha]

/-- A node under a new key leaves the graph tidy. -/
theorem tidy (ht : g.Tidy) : g'.Tidy where
  keys := by
    rw [h.nodes, List.map_append, List.nodup_append]
    refine ⟨ht.keys, by simp, ?_⟩
    rintro a ha b hb rfl
    rw [List.map_singleton, List.mem_singleton] at hb
    obtain ⟨n, hn, rfl⟩ := List.mem_map.mp ha
    exact h.fresh (hb ▸ has_of_find? (find?_of_mem ht.keys hn))
  known := by
    intro r a b
    rw [h.out_iff, h.in_iff]
    exact ht.known
  pred := by
    intro k n hn
    rw [h.find?] at hn
    split at hn
    · cases hn
      rw [h.pred]
      exact List.nodup_nil
    · exact ht.pred hn
  succ := by
    intro k n hn
    rw [h.find?] at hn
    split at hn
    · cases hn
      rw [h.succ]
      exact List.nodup_nil
    · exact ht.succ hn

end Puts

/-- The keys of tasks after a change of one of them. -/
theorem taskKeys_modify (g : Graph) (u : Nat) {t : Nat} (ht : t < g.tasks.length)
    (f : List Key → List Key) : ({ g with tasks := g.tasks.modify t f } : Graph).taskKeys u =
      if u = t then f (g.taskKeys u) else g.taskKeys u := by
  have hpos : (0 : Int) ≤ u := by omega
  unfold taskKeys
  dsimp only
  rw [if_pos hpos, if_pos hpos, Int.toNat_natCast, List.getElem?_modify]
  by_cases hu : u = t
  · subst hu
    rw [if_pos rfl, List.getElem?_eq_getElem ht]
    simp
  · simp [hu, Ne.symm hu]

theorem length_of_taskKeys {t : Nat} (h : g.taskKeys t ≠ []) : t < g.tasks.length := by
  by_contra hlt
  refine h ?_
  unfold taskKeys
  rw [if_pos (by omega), Int.toNat_natCast, List.getElem?_eq_none (by omega)]
  rfl

/-- The graph with one more event that has no edges yet. -/
def putNode (g : Graph) (m : Node) : Graph :=
  { g with
    nodes := g.nodes ++ [m]
    tasks := g.tasks.modify m.key.task.toNat fun ks => ks ++ [m.key]
    order := g.order ++ [m.key] }

/-- **A node at the next place of its task** leaves the graph shaped. -/
theorem Shaped.putNode (h : g.Shaped) {m : Node}
    (hputs : Puts g (g.putNode m) m) (hkind : m.kind ≠ .block) (hkey : m.key = .place t n)
    (ht : t < g.tasks.length) (hn : g.Fills t n) (hkeys : g.taskKeys t = places t n) :
    (g.putNode m).Shaped := by
  have hmem : ∀ {k}, k ∈ (g.putNode m).order ↔ k ∈ g.order ∨ k = .place t n := by
    intro k
    show k ∈ g.order ++ [m.key] ↔ _
    rw [List.mem_append, List.mem_singleton, hkey]
  have hnot : Key.place t n ∉ g.order := fun hk => hn.ne_of_mem hk rfl
  -- only the task of the new event has another key than before
  have htask : ∀ u : Nat, (g.putNode m).taskKeys u =
      if u = t then places t (n + 1) else g.taskKeys u := by
    intro u
    have htoNat : m.key.task.toNat = t := by rw [hkey]; rfl
    have hmodify := taskKeys_modify g u ht fun ks => ks ++ [.place t n]
    have heq : (g.putNode m).taskKeys u =
        ({ g with tasks := g.tasks.modify t fun ks => ks ++ [.place t n] } : Graph).taskKeys u := by
      unfold taskKeys Graph.putNode
      rw [htoNat, hkey]
    rw [heq, hmodify]
    split
    · rename_i hu
      rw [hu, hkeys, places_succ]
    · rfl
  -- the new event is no label, so every label is an old one
  have hlabel : ∀ k, (g.putNode m).isLabel k = true → g.isLabel k = true := by
    intro k hk
    obtain ⟨e, he, hblock⟩ := isLabel_iff_event?.mp hk
    rw [hputs.event?] at he
    split at he
    · cases he
      exact absurd hblock hkind
    · exact isLabel_iff_event?.mpr ⟨e, he, hblock⟩
  exact
    { tidy := hputs.tidy h.tidy
      nodup := by
        show (g.order ++ [m.key]).Nodup
        rw [hkey, List.nodup_append]
        refine ⟨h.nodup, by simp, ?_⟩
        rintro a ha b hb rfl
        exact hnot (List.mem_singleton.mp hb ▸ ha)
      first := by
        show (g.order ++ [m.key]).head? = _
        rw [List.head?_append, h.first]
        rfl
      has := by
        intro k hk
        rcases hmem.mp hk with hk | rfl
        · exact hputs.has (h.has hk)
        · exact hkey ▸ hputs.has_self
      mem_iff := by
        intro k e he
        rw [hmem]
        rw [hputs.event?] at he
        split at he
        · rename_i hk
          cases he
          exact iff_of_true (Or.inr (hk.trans hkey)) hkind
        · rename_i hk
          rw [← h.mem_iff he]
          exact or_iff_left fun heq => hk (heq.trans hkey.symm)
      key := by
        intro k hk
        rcases hmem.mp hk with hk | rfl
        · exact h.key hk
        · exact Or.inr ⟨t, n, rfl⟩
      tasks := by
        intro u
        rw [htask]
        by_cases hu : u = t
        · subst hu
          refine ⟨n + 1, fun i => ?_, Or.inl (if_pos rfl)⟩
          rw [hmem, hn, Key.place_inj]
          omega
        · obtain ⟨p, hp, htasks⟩ := h.tasks u
          rw [if_neg hu]
          refine ⟨p, fun i => ?_, htasks.imp_right fun hb => ⟨hb.1, ?_⟩⟩
          · rw [hmem, hp, Key.place_inj]
            simp [hu]
          · obtain ⟨e, he, hblock⟩ := isLabel_iff_event?.mp hb.2
            refine isLabel_iff_event?.mpr ⟨e, ?_, hblock⟩
            rw [hputs.event?, if_neg, he]
            rw [hkey, Key.place_inj]
            exact fun heq => hu heq.1
      label := by
        intro k hk
        obtain ⟨u, p, rfl, hu⟩ := h.label (hlabel k hk)
        refine ⟨u, p, rfl, ?_⟩
        rw [htask, if_neg, hu]
        -- a label of this task would stand where one of its events does
        rintro rfl
        rw [hu] at hkeys
        have := congrArg List.length hkeys
        rw [length_places, length_places] at this
        obtain ⟨e, he, hblock⟩ := isLabel_iff_event?.mp (hlabel _ hk)
        subst this
        exact (h.mem_iff he).mp ((hn p).mpr (Nat.lt_succ_self p)) hblock
      label_cause := by
        intro r a k hk hin
        exact h.label_cause (hlabel k hk) (hputs.in_iff.mp hin)
      programOrder := by
        intro a u i hin
        exact h.programOrder (hputs.in_iff.mp hin)
      no_cause := by
        intro r a hin
        exact h.no_cause (hputs.in_iff.mp hin) }

/-! ### Edges from several events to one -/

/-- Edges from several events to one. -/
def linkAll (g : Graph) (ks : List Key) (b : Key) (r : Relation) : Graph :=
  ks.foldl (fun g k => g.link k b r) g

section LinkAll

variable {ks : List Key}

theorem linkAll_cons (g : Graph) (a : Key) (ks : List Key) (b : Key) (r : Relation) :
    g.linkAll (a :: ks) b r = (g.link a b r).linkAll ks b r := rfl

/-- Edges do not change the total order. -/
@[simp] theorem linkAll_order (g : Graph) (ks : List Key) (b : Key) (r : Relation) :
    (g.linkAll ks b r).order = g.order := by
  induction ks generalizing g with
  | nil => rfl
  | cons a ks ih => rw [linkAll_cons, ih, link_order]

@[simp] theorem linkAll_tasks (g : Graph) (ks : List Key) (b : Key) (r : Relation) :
    (g.linkAll ks b r).tasks = g.tasks := by
  induction ks generalizing g with
  | nil => rfl
  | cons a ks ih => rw [linkAll_cons, ih, link_tasks]

@[simp] theorem linkAll_chains (g : Graph) (ks : List Key) (b : Key) (r : Relation) :
    (g.linkAll ks b r).chains = g.chains := by
  induction ks generalizing g with
  | nil => rfl
  | cons a ks ih => rw [linkAll_cons, ih, link_chains]

@[simp] theorem linkAll_waiting (g : Graph) (ks : List Key) (b : Key) (r : Relation) :
    (g.linkAll ks b r).waiting = g.waiting := by
  induction ks generalizing g with
  | nil => rfl
  | cons a ks ih => rw [linkAll_cons, ih, link_waiting]

/-- Edges do not change events. -/
@[simp] theorem event?_linkAll : (g.linkAll ks b r).event? k = g.event? k := by
  induction ks generalizing g with
  | nil => rfl
  | cons a ks ih => rw [linkAll_cons, ih, event?_link]

/-- Edges from several events leave the graph shaped. -/
theorem Shaped.linkAll (h : g.Shaped) (hks : ∀ k ∈ ks, g.Has k) (hb : b ∈ g.order) (hne : b ≠ .init)
    (hr : r ≠ .programOrder) : (g.linkAll ks b r).Shaped := by
  induction ks generalizing g with
  | nil => exact h
  | cons a ks ih =>
    refine ih (h.link (hks a List.mem_cons_self) hb hne fun heq => absurd heq hr)
      (fun k hk => ?_) ?_
    · rw [has_link]
      exact hks k (List.mem_cons_of_mem _ hk)
    · rw [link_order]
      exact hb

theorem out_linkAll (hks : ∀ k ∈ ks, g.Has k) {r' : Relation} {c d : Key} :
    (g.linkAll ks b r).Out r' c d ↔ g.Out r' c d ∨ r' = r ∧ c ∈ ks ∧ d = b := by
  induction ks generalizing g with
  | nil =>
    rw [linkAll, List.foldl_nil]
    simp
  | cons a ks ih =>
    rw [linkAll_cons, ih fun k hk => has_link.mpr (hks k (List.mem_cons_of_mem _ hk)),
      out_link (hks a List.mem_cons_self), List.mem_cons]
    tauto

/-- Edges from several events to one are all there. -/
theorem in_linkAll (hb : g.Has b) {r' : Relation} {c d : Key} :
    (g.linkAll ks b r).In r' c d ↔ g.In r' c d ∨ r' = r ∧ c ∈ ks ∧ d = b := by
  induction ks generalizing g with
  | nil =>
    rw [linkAll, List.foldl_nil]
    simp
  | cons a ks ih =>
    rw [linkAll_cons, ih (has_link.mpr hb), in_link hb, List.mem_cons]
    tauto

/-- What an event learns from several others. -/
theorem clockOf_linkAll (hb : g.Has b) (hne : b ∉ ks) (hr : r.ordersTime = true) :
    (g.linkAll ks b r).clockOf k =
      if k = b then ks.foldl (fun c k => c.merge (g.clockOf k)) (g.clockOf b) else g.clockOf k := by
  unfold linkAll
  induction ks generalizing g with
  | nil =>
    by_cases hk : k = b
    · simp [hk]
    · simp [hk]
  | cons a ks ih =>
    have hab : b ≠ a := fun heq => hne (heq ▸ List.mem_cons_self)
    have hclock : ∀ k, (g.link a b r).clockOf k =
        if k = b then (g.clockOf b).merge (g.clockOf a) else g.clockOf k := by
      intro k
      rw [clockOf_link hb]
      simp [hr]
    rw [List.foldl_cons, ih (has_link.mpr hb) fun hmem => hne (List.mem_cons_of_mem _ hmem)]
    by_cases hk : k = b
    · subst hk
      rw [if_pos rfl, if_pos rfl, List.foldl_cons, hclock, if_pos rfl]
      refine List.foldl_ext _ _ _ fun c d hd => ?_
      have hdk : d ≠ k := fun heq => hne (heq ▸ List.mem_cons_of_mem _ hd)
      rw [hclock, if_neg hdk]
    · rw [if_neg hk, if_neg hk, hclock, if_neg hk]

end LinkAll

/-- A merge of clocks knows what one of them knows. -/
theorem count_foldl_merge {clk : Key → Clock} {ks : List Key} {c : Clock} (hc : c.Nonneg) :
    (ks.foldl (fun c k => c.merge (clk k)) c).Nonneg ∧ ∀ u i : Nat,
      ((i : Int) < (ks.foldl (fun c k => c.merge (clk k)) c).count u ↔
        (i : Int) < c.count u ∨ ∃ k ∈ ks, (i : Int) < (clk k).count u) := by
  induction ks generalizing c with
  | nil => exact ⟨hc, by simp⟩
  | cons a ks ih =>
    obtain ⟨hnonneg, hcount⟩ := ih (hc.merge (clk a))
    refine ⟨hnonneg, fun u i => ?_⟩
    rw [List.foldl_cons, hcount, Clock.count_merge hc]
    simp only [List.mem_cons, exists_eq_or_imp]
    rw [← or_assoc]
    refine or_congr_left ?_
    omega

/-! ### Adding an event -/

/-- The starts of the threads that a task has spawned since its last event. -/
def unordered (g : Graph) (last : Key) : List Key :=
  if last.isInit then [] else ((g.find? last).map (·.successors .threadStart)).getD []

/-- An event as it enters the graph. -/
def entered (g : Graph) (e : Event) : Event :=
  { e with key := ⟨e.task, (g.taskKeys e.task).length⟩, stamp := g.order.length }

/-- The node of an event as it enters the graph. -/
def nodeOf (g : Graph) (e : Event) : Node :=
  Node.new (g.entered e) ((g.clockOf (g.lastOf e.task)).successor e.task.toNat)

/-- The graph with an event and the edges into it. -/
def withEvent (g : Graph) (e : Event) : Graph :=
  ((g.putNode (g.nodeOf e)).link (g.lastOf e.task) (g.entered e).key .programOrder).linkAll
    (g.unordered (g.lastOf e.task)) (g.entered e).key .threadCreation

theorem link_withOrder (g : Graph) (a b : Key) (r : Relation) (o : List Key) :
    { g.link a b r with order := o } = ({ g with order := o } : Graph).link a b r := by
  unfold Graph.link
  dsimp only
  split <;> rfl

/-- **Adding an event** is adding a node and opening the chain of its location. -/
theorem insertEvent_eq (g : Graph) (e : Event) :
    g.insertEvent e =
      if e.hasLocation && ((g.withEvent e).chain? e.location).isNone then
        (g.withEvent e).setChain e.location [.init]
      else g.withEvent e := by
  have happend : { g.appendToTask (g.nodeOf e) with order := g.order ++ [(g.entered e).key] } =
      (g.putNode (g.nodeOf e)).link (g.lastOf e.task) (g.entered e).key .programOrder := by
    unfold appendToTask
    rw [link_withOrder]
    rfl
  have horder : (g.appendToTask (g.nodeOf e)).order = g.order := by
    unfold appendToTask
    rw [link_order]
  unfold insertEvent withEvent linkAll
  rw [← happend]
  unfold unordered
  show (if _ then _ else _) = _
  rw [← horder]
  rfl

/-- A new event gets the next place of its task. -/
theorem entered_key {e : Event} (htask : e.task = t) (hkeys : g.taskKeys t = places t n) :
    (g.entered e).key = .place t n := by
  unfold entered
  rw [htask, hkeys, length_places]
  rfl

/-- Threads that a task has spawned are known from edges of its last event, which is not the first
one. -/
theorem mem_unordered : k ∈ g.unordered a ↔ a.isInit = false ∧ g.Out .threadStart a k := by
  unfold unordered
  cases hinit : a.isInit with
  | true => simp
  | false =>
    rw [if_neg (by simp)]
    cases ha : g.find? a with
    | none =>
      refine iff_of_false (by simp) ?_
      rintro ⟨-, n, hn, -⟩
      rw [ha] at hn
      cases hn
    | some n =>
      rw [Option.map_some, Option.getD_some, mem_successors ha]
      simp

/-- What adding an event makes of a graph. -/
structure Grows (g : Graph) (e : Event) (t n : Nat) (g' : Graph) : Prop where
  shaped : g'.Shaped
  order : g'.order = g.order ++ [.place t n]
  chains : g'.chains = g.chains
  waiting : g'.waiting = g.waiting
  event : ∀ k, g'.event? k = if k = .place t n then some (g.entered e) else g.event? k
  out : ∀ r a b, g'.Out r a b ↔ g.Out r a b ∨ b = .place t n ∧
    (r = .programOrder ∧ a = .prior t n ∨
      r = .threadCreation ∧ n ≠ 0 ∧ g.Out .threadStart (.prior t n) a)
  cause : ∀ r a b, g'.In r a b ↔ g.In r a b ∨ b = .place t n ∧
    (r = .programOrder ∧ a = .prior t n ∨
      r = .threadCreation ∧ n ≠ 0 ∧ g.Out .threadStart (.prior t n) a)
  clock : ∀ k, k ≠ .place t n → g'.clockOf k = g.clockOf k
  nonneg : ((g.clockOf (.prior t n)).successor t).Nonneg → (g'.clockOf (.place t n)).Nonneg
  count : ((g.clockOf (.prior t n)).successor t).Nonneg → ∀ u i : Nat,
    (i : Int) < (g'.clockOf (.place t n)).count u ↔
      ((i : Int) < ((g.clockOf (.prior t n)).successor t).count u ∨
        (i : Int) < (g.clockOf (.prior t n)).count u) ∨
        ∃ k, n ≠ 0 ∧ g.Out .threadStart (.prior t n) k ∧ (i : Int) < (g.clockOf k).count u
  unblocked : ∀ u : Nat, g'.isBlocked u = g.isBlocked u

theorem isInit_prior (t n : Nat) : (Key.prior t n).isInit = false ↔ n ≠ 0 := by
  cases n with
  | zero => simp [Key.prior, show Key.init.isInit = true from rfl]
  | succ n => simp [Key.prior]

/-- **Adding an event** to a task that is not blocked. -/
theorem Shaped.grows (h : g.Shaped) {e : Event} (hn : g.Fills t n)
    (hkeys : g.taskKeys t = places t n) (htask : e.task = t) (hlen : t < g.tasks.length)
    (hkind : e.kind ≠ .block) :
    Grows g e t n (g.withEvent e) := by
  have hkey := entered_key htask hkeys
  have hlast : g.lastOf e.task = .prior t n := by rw [htask, lastOf_eq hkeys]
  have hnot : Key.place t n ∉ g.order := fun hk => hn.ne_of_mem hk rfl
  have hprior := h.prior_mem hn
  have hnew := h.not_has hn hkeys
  -- the graph is made in three steps: the node, the edge of program order, the edges of thread
  -- creation
  obtain ⟨m, hm⟩ : ∃ m, m = g.nodeOf e := ⟨_, rfl⟩
  have hmkey : m.key = .place t n := by rw [hm]; exact hkey
  have hmclock : m.clock = (g.clockOf (.prior t n)).successor t := by
    rw [hm]
    show (g.clockOf (g.lastOf e.task)).successor e.task.toNat = _
    rw [hlast, htask]
    rfl
  have hputs : Puts g (g.putNode m) m :=
    ⟨rfl, by rw [hmkey]; exact hnew, by rw [hm]; rfl, by rw [hm]; rfl⟩
  have hput : (g.putNode m).Shaped := h.putNode hputs (by rw [hm]; exact hkind) hmkey hlen hn hkeys
  have horder : (g.putNode m).order = g.order ++ [.place t n] := by rw [← hmkey]; rfl
  have hself : Key.place t n ∈ (g.putNode m).order := by
    rw [horder]
    exact List.mem_append_right _ (List.mem_singleton_self _)
  have hhas : (g.putNode m).Has (.place t n) := hput.has hself
  have hpriorHas : (g.putNode m).Has (.prior t n) := hputs.has (h.has hprior)
  have hne : Key.prior t n ≠ .place t n := fun heq => hnot (heq ▸ hprior)
  have hchild : ∀ k ∈ g.unordered (.prior t n),
      ((g.putNode m).link (.prior t n) (.place t n) .programOrder).Has k := by
    intro k hk
    exact has_link.mpr (hputs.has (h.tidy.has_target (mem_unordered.mp hk).2))
  have hchildNe : Key.place t n ∉ g.unordered (.prior t n) := fun hmem =>
    hnew (h.tidy.has_target (mem_unordered.mp hmem).2)
  have hmem : ∀ k, k ∈ g.unordered (.prior t n) ↔ n ≠ 0 ∧ g.Out .threadStart (.prior t n) k := by
    intro k
    rw [mem_unordered, isInit_prior]
  have hclock : ∀ k, ((g.putNode m).link (.prior t n) (.place t n) .programOrder).clockOf k =
      if k = .place t n then ((g.clockOf (.prior t n)).successor t).merge (g.clockOf (.prior t n))
      else g.clockOf k := by
    intro k
    rw [clockOf_link hhas, hputs.clockOf, hputs.clockOf, hputs.clockOf, hmkey, if_pos rfl,
      if_neg hne, hmclock]
    by_cases hk : k = .place t n
    · rw [if_pos ⟨hk, rfl⟩, if_pos hk]
    · rw [if_neg fun hk' => hk hk'.1, if_neg hk, if_neg hk]
  have hdef : g.withEvent e = ((g.putNode m).link (.prior t n) (.place t n) .programOrder).linkAll
      (g.unordered (.prior t n)) (.place t n) .threadCreation := by
    unfold Graph.withEvent
    rw [hlast, hkey, hm]
  have hlinked := hput.link (r := .programOrder) hpriorHas hself (Key.place_ne_init t n) fun _ =>
    ⟨t, n, rfl, rfl⟩
  have hshaped : (g.withEvent e).Shaped := by
    rw [hdef]
    exact hlinked.linkAll hchild (by rw [link_order]; exact hself)
      (Key.place_ne_init t n) (by decide)
  -- the clock knows what the prior event knows and what the threads know that it started
  have hmerge : ∀ u i : Nat, ((g.clockOf (.prior t n)).successor t).Nonneg →
      (((g.withEvent e).clockOf (.place t n)).Nonneg ∧
        ((i : Int) < ((g.withEvent e).clockOf (.place t n)).count u ↔
          ((i : Int) < ((g.clockOf (.prior t n)).successor t).count u ∨
            (i : Int) < (g.clockOf (.prior t n)).count u) ∨
          ∃ k, n ≠ 0 ∧ g.Out .threadStart (.prior t n) k ∧ (i : Int) < (g.clockOf k).count u)) := by
    intro u i hnonneg
    obtain ⟨hfold, hcount⟩ := @count_foldl_merge
      ((g.putNode m).link (.prior t n) (.place t n) .programOrder).clockOf
      (g.unordered (.prior t n)) _ (hnonneg.merge (g.clockOf (.prior t n)))
    rw [hdef, clockOf_linkAll (has_link.mpr hhas) hchildNe rfl, if_pos rfl, hclock, if_pos rfl]
    refine ⟨hfold, ?_⟩
    rw [hcount, Clock.count_merge hnonneg]
    refine or_congr (by omega) (exists_congr fun k => ?_)
    rw [hmem, and_assoc]
    refine and_congr_right fun hn0 => and_congr_right fun hout => ?_
    have hkne : k ≠ .place t n := fun heq => hchildNe (heq ▸ (hmem k).mpr ⟨hn0, hout⟩)
    rw [hclock, if_neg hkne]
  have hevent : ∀ k, (g.withEvent e).event? k =
      if k = .place t n then some (g.entered e) else g.event? k := by
    intro k
    rw [hdef, event?_linkAll, event?_link, hputs.event?, hmkey, hm]
    rfl
  have horder' : (g.withEvent e).order = g.order ++ [.place t n] := by
    rw [hdef, linkAll_order, link_order, horder]
  exact
    { shaped := hshaped
      order := horder'
      chains := by
        rw [hdef, linkAll_chains, link_chains]
        rfl
      waiting := by
        rw [hdef, linkAll_waiting, link_waiting]
        rfl
      event := hevent
      out := by
        intro r a b
        rw [hdef, out_linkAll hchild, out_link hpriorHas, hputs.out_iff, hmem]
        tauto
      cause := by
        intro r a b
        rw [hdef, in_linkAll (has_link.mpr hhas), in_link hhas, hputs.in_iff, hmem]
        tauto
      clock := by
        intro k hk
        rw [hdef, clockOf_linkAll (has_link.mpr hhas) hchildNe rfl, if_neg hk, hclock, if_neg hk]
      nonneg := fun hnonneg => (hmerge 0 0 hnonneg).1
      count := fun hnonneg u i => (hmerge u i hnonneg).2
      unblocked := by
        intro u
        have htaskKeys : (g.withEvent e).taskKeys u =
            if u = t then places t (n + 1) else g.taskKeys u := by
          have htoNat : m.key.task.toNat = t := by rw [hmkey]; rfl
          have hmodify := taskKeys_modify g u hlen fun ks => ks ++ [.place t n]
          have heq : (g.withEvent e).taskKeys u =
              ({ g with tasks := g.tasks.modify t fun ks => ks ++ [.place t n] } :
                Graph).taskKeys u := by
            unfold taskKeys
            rw [hdef, linkAll_tasks, link_tasks]
            unfold Graph.putNode
            rw [htoNat, hmkey]
          rw [heq, hmodify]
          split
          · rename_i hu
            rw [hu, hkeys, places_succ]
          · rfl
        -- a task is blocked when it has one key more than events, and here both numbers grow by one
        rw [Bool.eq_iff_iff]
        obtain ⟨p, hp, -⟩ := h.tasks u
        by_cases hu : u = t
        · subst hu
          have hfill : (g.withEvent e).Fills u (n + 1) := by
            intro i
            rw [horder', List.mem_append, List.mem_singleton, hn, Key.place_inj]
            omega
          rw [hshaped.isBlocked_iff hfill, h.isBlocked_iff hn, htaskKeys, if_pos rfl, hkeys]
          refine iff_of_false (fun heq => ?_) fun heq => ?_
          · simpa using congrArg List.length heq
          · simpa using congrArg List.length heq
        · have hfill : (g.withEvent e).Fills u p := by
            intro i
            rw [horder', List.mem_append, List.mem_singleton, hp, Key.place_inj]
            simp [hu]
          rw [hshaped.isBlocked_iff hfill, h.isBlocked_iff hp, htaskKeys, if_neg hu] }

end Interleaving.Graph
