import Interleaving.Proofs.Graph.Reclocking

/-!
# Relations and chains in another order

A node keeps its edges relation by relation and a graph its chains location by location, and neither
says which relation or which location is to be gone through first. Two graphs are **shuffled**
(`Interleaving.Graph.Shuffled`) when they differ in nothing else: the edges under one relation are
listed in the same order, and so are the keys of a chain.

All that is asked of a graph by key has the same answer then, and a copy is shuffled if the original
is. So is what comes of **computing all clocks anew**
(`Interleaving.Graph.Regular.recomputeClocks_shuffled`): the nodes are walked in the same order, and
a clock is merged from the same clocks, whichever comes first.
-/

namespace Interleaving

namespace Edges

variable {es es' : Edges} {r : Relation} {k : Key}

/-- The same edges in the same order under every relation, which may come between those under other
relations in another way. -/
def Shuffled (es es' : Edges) : Prop := ∀ r, es'.keys r = es.keys r

/-- The first edge is in front under its own relation. -/
theorem keys_cons (r' : Relation) (k : Key) (es : Edges) (r : Relation) :
    Edges.keys ((r', k) :: es) r = if r' = r then k :: es.keys r else es.keys r := by
  unfold keys
  by_cases hr : r' = r
  · simp [hr]
  · simp [hr]

/-- An edge occurs as often as its end does under its relation. -/
theorem count_eq (es : Edges) (r : Relation) (k : Key) : es.count (r, k) = (es.keys r).count k := by
  induction es with
  | nil => rfl
  | cons e es ih =>
    obtain ⟨r', k'⟩ := e
    rw [keys_cons]
    by_cases hr : r' = r
    · by_cases hk : k' = k
      · simp [hr, hk, ih]
      · simp [hr, hk, ih]
    · simp [hr, ih]

/-- Edges are left out relation by relation. -/
theorem keys_filter (es : Edges) (p : Relation × Key → Bool) (r : Relation) :
    Edges.keys (es.filter p) r = (es.keys r).filter fun k => p (r, k) := by
  induction es with
  | nil => rfl
  | cons e es ih =>
    obtain ⟨r', k'⟩ := e
    by_cases hr : r' = r
    · subst hr
      by_cases hp : p (r', k') = true
      · simp [hp, keys_cons, ih]
      · simp [hp, keys_cons, ih]
    · by_cases hp : p (r', k') = true
      · simp [hp, hr, keys_cons, ih]
      · simp [hp, hr, keys_cons, ih]

namespace Shuffled

/-- Reordering can be undone. -/
theorem symm (h : es.Shuffled es') : es'.Shuffled es := fun r => (h r).symm

/-- Reordered edges are the same edges. -/
theorem perm (h : es.Shuffled es') : es'.Perm es := by
  refine List.perm_iff_count.mpr fun e => ?_
  obtain ⟨r, k⟩ := e
  rw [count_eq, count_eq, h r]

/-- The edges that are left after a selection are reordered ones. -/
theorem filter (h : es.Shuffled es') (p : Relation × Key → Bool) :
    Edges.Shuffled (es.filter p) (es'.filter p) :=
  fun r => by rw [keys_filter, keys_filter, h r]

end Shuffled

end Edges

/-- The same event with the same clock and the same edges, whose relations may be listed in another
order. -/
structure Node.Shuffled (m n : Node) : Prop where
  event : n.event = m.event
  clock : n.clock = m.clock
  attributes : n.attributes = m.attributes
  succ : m.succ.Shuffled n.succ
  pred : m.pred.Shuffled n.pred

namespace Node.Shuffled

variable {m n : Node} (h : m.Shuffled n)
include h

theorem symm : n.Shuffled m :=
  ⟨h.event.symm, h.clock.symm, h.attributes.symm, h.succ.symm, h.pred.symm⟩

theorem key : n.key = m.key := congrArg (·.key) h.event

theorem kind : n.kind = m.kind := congrArg (·.kind) h.event

theorem location : n.location = m.location := congrArg (·.location) h.event

theorem successors (r : Relation) : n.successors r = m.successors r := h.succ r

theorem predecessors (r : Relation) : n.predecessors r = m.predecessors r := h.pred r

/-- The events that a walk comes to from a node do not depend on the order of its edges. -/
theorem targets : Graph.targets n = Graph.targets m := by
  unfold Graph.targets
  rw [show n.successors = m.successors from funext h.successors]

end Node.Shuffled

namespace Graph

variable {g h : Graph} {a b k : Key} {r : Relation} {m n : Node} {ns ms : List Node}

/-- **The same graph with its relations and chains in another order.** -/
structure Shuffled (g h : Graph) : Prop where
  nodes : List.Forall₂ Node.Shuffled g.nodes h.nodes
  tasks : h.tasks = g.tasks
  order : h.order = g.order
  chains : h.chains.Perm g.chains
  waiting : h.waiting = g.waiting

/-- A selection by keys picks corresponding nodes. -/
theorem forall₂_filter_key (p : Key → Bool) (hns : List.Forall₂ Node.Shuffled ns ms) :
    List.Forall₂ Node.Shuffled (ns.filter fun n => p n.key) (ms.filter fun n => p n.key) := by
  induction hns with
  | nil => exact .nil
  | @cons m n _ _ hmn _ ih =>
    rw [List.filter_cons, List.filter_cons, hmn.key]
    split
    · exact .cons hmn ih
    · exact ih

/-- A search by keys finds corresponding nodes. -/
theorem forall₂_find? (p : Key → Bool) (hns : List.Forall₂ Node.Shuffled ns ms)
    (hm : ns.find? (fun n => p n.key) = some m) :
    ∃ n, ms.find? (fun n => p n.key) = some n ∧ m.Shuffled n := by
  induction hns with
  | nil => cases hm
  | @cons m' n _ _ hmn _ ih =>
    rw [List.find?_cons] at hm ⊢
    rw [hmn.key]
    split at hm
    · cases hm
      exact ⟨n, rfl, hmn⟩
    · exact ih hm

namespace Shuffled

theorem symm (hs : Shuffled g h) : Shuffled h g :=
  ⟨hs.nodes.flip.imp fun _ _ hmn => hmn.symm, hs.tasks.symm, hs.order.symm, hs.chains.symm,
    hs.waiting.symm⟩

/-! ### Looking up -/

section Questions

variable (hs : Shuffled g h)
include hs

/-- **Nodes are found under the same keys**, up to the order of their edges. -/
theorem find? (hm : g.find? k = some m) : ∃ n, h.find? k = some n ∧ m.Shuffled n :=
  forall₂_find? (fun k' => k' == k) hs.nodes hm

theorem find?_eq_none (hk : g.find? k = none) : h.find? k = none := by
  cases hn : h.find? k with
  | none => rfl
  | some n =>
    obtain ⟨m, hm, -⟩ := hs.symm.find? hn
    rw [hm] at hk
    cases hk

/-- What both nodes of a key agree in is the same for the key. -/
theorem map_find? {α : Type} (f : Node → α)
    (hf : ∀ m n : Node, m.Shuffled n → f n = f m) (k : Key) :
    (h.find? k).map f = (g.find? k).map f := by
  cases hm : g.find? k with
  | none => rw [hs.find?_eq_none hm]
  | some m =>
    obtain ⟨n, hn, hmn⟩ := hs.find? hm
    rw [hn, Option.map_some, Option.map_some, hf m n hmn]

/-- Both graphs have the same events. -/
theorem event? (k : Key) : h.event? k = g.event? k := hs.map_find? _ (fun _ _ hmn => hmn.event) k

theorem kindOf? (k : Key) : h.kindOf? k = g.kindOf? k := hs.map_find? _ (fun _ _ hmn => hmn.kind) k

theorem has_iff : h.Has k ↔ g.Has k := by
  rw [has_iff_event?, has_iff_event?, hs.event?]

theorem isLabel (k : Key) : h.isLabel k = g.isLabel k := by
  unfold Graph.isLabel
  rw [hs.kindOf?]

/-- Tasks list the same events in the same order. -/
theorem taskKeys (t : Int) : h.taskKeys t = g.taskKeys t := by
  unfold Graph.taskKeys
  rw [hs.tasks]

theorem lastOf (t : Int) : h.lastOf t = g.lastOf t := by
  unfold Graph.lastOf
  rw [hs.taskKeys]

theorem waitingFor (loc : Location) : h.waitingFor loc = g.waitingFor loc := by
  unfold Graph.waitingFor
  rw [hs.waiting]

theorem indexOf? (k : Key) : h.indexOf? k = g.indexOf? k := by
  unfold Graph.indexOf?
  rw [hs.order]

/-- Both graphs have the same incoming edges. -/
theorem in_iff : h.In r a b ↔ g.In r a b := by
  have himp : ∀ {g h : Graph}, Shuffled g h → g.In r a b → h.In r a b := by
    rintro g h hs ⟨m, hm, hmem⟩
    obtain ⟨n, hn, hmn⟩ := hs.find? hm
    exact ⟨n, hn, hmn.pred.perm.mem_iff.mpr hmem⟩
  exact ⟨himp hs.symm, himp hs⟩

/-- Both graphs have the same outgoing edges. -/
theorem out_iff : h.Out r a b ↔ g.Out r a b := by
  have himp : ∀ {g h : Graph}, Shuffled g h → g.Out r a b → h.Out r a b := by
    rintro g h hs ⟨m, hm, hmem⟩
    obtain ⟨n, hn, hmn⟩ := hs.find? hm
    exact ⟨n, hn, hmn.succ.perm.mem_iff.mpr hmem⟩
  exact ⟨himp hs.symm, himp hs⟩

/-- What a key names is the same node. -/
theorem node? (hm : g.node? k = some m) : ∃ n, h.node? k = some n ∧ m.Shuffled n := by
  unfold Graph.node? at hm ⊢
  rw [hs.order, hs.taskKeys]
  split at hm
  · rename_i hinit
    rw [if_pos hinit]
    obtain ⟨k', hk', hm⟩ := Option.bind_eq_some_iff.mp hm
    rw [hk']
    exact hs.find? hm
  · rename_i hinit
    rw [if_neg hinit]
    split at hm
    · rename_i hseq
      rw [if_pos hseq]
      obtain ⟨k', hk', hm⟩ := Option.bind_eq_some_iff.mp hm
      rw [hk']
      exact hs.find? hm
    · cases hm

/-- An access by task and place fails in both graphs, or it finds corresponding nodes. -/
theorem node_cases (k : Key) : (∃ e, g.node k = .error e ∧ h.node k = .error e) ∨
    ∃ m n, g.node k = .ok m ∧ h.node k = .ok n ∧ m.Shuffled n := by
  unfold Graph.node
  cases hm : g.node? k with
  | some m =>
    obtain ⟨n, hn, hmn⟩ := hs.node? hm
    exact Or.inr ⟨m, n, rfl, by rw [hn], hmn⟩
  | none =>
    have hn : h.node? k = none := by
      cases hn : h.node? k with
      | none => rfl
      | some n =>
        obtain ⟨m, hm', -⟩ := hs.symm.node? hn
        rw [hm'] at hm
        cases hm
    exact Or.inl ⟨_, rfl, by rw [hn]⟩

/-- A chain is the same when no location has two. -/
theorem chain? (hlocs : (g.chains.map (·.1)).Nodup) (loc : Location) :
    h.chain? loc = g.chain? loc := by
  have hlocs' : (h.chains.map (·.1)).Nodup := (hs.chains.map _).nodup_iff.mpr hlocs
  have himp : ∀ {cs ds : List (Location × List Key)} {ks}, ds.Perm cs → (ds.map (·.1)).Nodup →
      cs.lookup loc = some ks → ds.lookup loc = some ks := by
    intro cs ds ks hperm hnodup hks
    obtain ⟨l₁, l₂, heq, -⟩ := List.lookup_eq_some_iff.mp hks
    exact lookup_of_mem hnodup
      (hperm.mem_iff.mpr (heq ▸ List.mem_append_right _ List.mem_cons_self))
  unfold Graph.chain?
  cases hg : g.chains.lookup loc with
  | some ks => exact himp hs.chains hlocs' hg
  | none =>
    cases hh : h.chains.lookup loc with
    | none => rfl
    | some ks =>
      rw [himp hs.chains.symm hlocs hh] at hg
      cases hg

/-- **Chains of locations are the same**, whatever order the locations are in. -/
theorem chain (hlocs : (g.chains.map (·.1)).Nodup) (loc : Location) :
    h.chain loc = g.chain loc := by
  unfold Graph.chain
  rw [hs.chain? hlocs]

/-! ### Well-formed graphs -/

/-- A reordered graph is tidy, too. -/
theorem tidy (hg : g.Tidy) : h.Tidy where
  keys := by
    have hkeys : h.nodes.map (·.key) = g.nodes.map (·.key) := by
      rw [← List.forall₂_eq_eq_eq, List.forall₂_map_left_iff, List.forall₂_map_right_iff]
      exact hs.nodes.flip.imp fun _ _ hmn => hmn.key
    rw [hkeys]
    exact hg.keys
  known := fun hout => hs.in_iff.mpr (hg.known (hs.out_iff.mp hout))
  pred := by
    intro k n hn
    obtain ⟨m, hm, hmn⟩ := hs.symm.find? hn
    exact hmn.symm.pred.perm.nodup_iff.mpr (hg.pred hm)
  succ := by
    intro k n hn
    obtain ⟨m, hm, hmn⟩ := hs.symm.find? hn
    exact hmn.symm.succ.perm.nodup_iff.mpr (hg.succ hm)

theorem joins {loc : Location} (hk : g.Joins k loc) : h.Joins k loc := hk.congr (hs.event? k)

/-- **A regular graph stays regular.** -/
theorem regular (hg : g.Regular) : h.Regular where
  toShaped := hg.toShaped.congr (hs.tidy hg.tidy) hs.order hs.tasks hs.kindOf? fun hin =>
    Or.inl (hs.in_iff.mp hin)
  initial := fun he => hg.initial ((hs.event? _).symm.trans he)
  sequence := by
    rw [hs.order]
    exact hg.sequence
  mirrored := fun r a b hin => hs.out_iff.mpr (hg.mirrored r a b (hs.in_iff.mp hin))
  linked := fun hhas => hs.in_iff.mpr (hg.linked (hs.has_iff.mp hhas))
  label_end := fun hlabel hin => hg.label_end ((hs.isLabel _).symm.trans hlabel) (hs.in_iff.mp hin)
  no_fromRead := fun hin => hg.no_fromRead (hs.in_iff.mp hin)
  placed := fun hk he => hg.placed (hs.order ▸ hk) ((hs.event? _).symm.trans he)
  touched := by
    intro k e hk he hne
    rw [hs.chain hg.locations]
    exact hg.touched (hs.order ▸ hk) ((hs.event? k).symm.trans he) hne
  locations := (hs.chains.map _).nodup_iff.mpr hg.locations
  chain_eq := by
    intro c hc
    obtain ⟨ws, heq, hnodup, hws⟩ := hg.chain_eq (hs.chains.mem_iff.mp hc)
    exact ⟨ws, heq, hnodup, fun w hw => hs.joins (hws w hw)⟩
  source := fun ha hb => hg.source (hs.in_iff.mp ha) (hs.in_iff.mp hb)
  waits := by
    intro loc
    rw [hs.waitingFor]
    exact hg.waits loc
  coherency := by
    intro a b
    rw [hs.in_iff, hg.coherency]
    simp only [hs.chain hg.locations]

/-! ### Changes of nodes -/

/-- Corresponding changes of a node keep the graphs alike. -/
theorem modifyNode {f f' : Node → Node}
    (hf : ∀ m n : Node, m.Shuffled n → (f m).Shuffled (f' n)) (k : Key) :
    Shuffled (g.modifyNode k f) (h.modifyNode k f') := by
  refine ⟨?_, hs.tasks, hs.order, hs.chains, hs.waiting⟩
  unfold Graph.modifyNode
  rw [List.forall₂_map_left_iff, List.forall₂_map_right_iff]
  refine hs.nodes.imp fun m n hmn => ?_
  rw [hmn.key]
  split
  · exact hf m n hmn
  · exact hmn

/-- The labels that a copy leaves out are the same. -/
theorem cuts : h.cuts = g.cuts := by
  have hlabel : h.isLabel = g.isLabel := funext hs.isLabel
  unfold Graph.cuts beforeLabel
  rw [hs.tasks, hlabel]

end Questions

theorem foldl_cut (hs : Shuffled g h) (cs : List (Key × Key)) :
    Shuffled (cs.foldl cut g) (cs.foldl cut h) := by
  induction cs generalizing g h with
  | nil => exact hs
  | cons c cs ih =>
    refine ih (hs.modifyNode (fun m n hmn => ?_) c.1)
    exact ⟨hmn.event, hmn.clock, hmn.attributes, hmn.succ.filter _, hmn.pred⟩

/-- **Copies are shuffled if the originals are.** -/
theorem copy (hs : Shuffled g h) : Shuffled g.copy h.copy := by
  have hlabel : h.isLabel = g.isLabel := funext hs.isLabel
  refine ⟨?_, ?_, hs.order, hs.chains, rfl⟩
  · rw [nodes_copy, nodes_copy, hs.cuts, hs.tasks, hlabel]
    exact forall₂_filter_key (fun k => !(g.tasks.flatten.filter g.isLabel).contains k)
      (hs.foldl_cut g.cuts).nodes
  · unfold Graph.copy
    dsimp only
    rw [hs.tasks, hlabel]

end Shuffled

/-! ### The walk -/

section Walking

variable (hs : Shuffled g h)
include hs

/-- A walk starts with the same counts. -/
theorem Shuffled.pending : h.pending = g.pending := by
  have hnumber : ∀ k, (h.find? k).map (fun n => (n.key, (n.pred.length : Int))) =
      (g.find? k).map fun n => (n.key, (n.pred.length : Int)) :=
    hs.map_find? _ fun m n hmn => by rw [hmn.key, hmn.pred.perm.length_eq]
  unfold Graph.pending events
  rw [List.map_filterMap, List.map_filterMap, hs.order]
  simp only [hnumber]

/-- A walk reaches corresponding nodes. -/
theorem Shuffled.reachable? (hm : g.reachable? k = some m) :
    ∃ n, h.reachable? k = some n ∧ m.Shuffled n := by
  unfold Graph.reachable? at hm ⊢
  rw [hs.order, hs.isLabel, hs.lastOf]
  split at hm
  · rename_i hk
    rw [if_pos hk]
    exact hs.find? hm
  · cases hm

/-- Keys lead to corresponding nodes, or the same key is the first without one. -/
theorem Shuffled.resolveAll (source : Key) (ks : List Key) :
    (∃ e, g.resolveAll source ks = .error e ∧ h.resolveAll source ks = .error e) ∨
      ∃ ns ms, g.resolveAll source ks = .ok ns ∧ h.resolveAll source ks = .ok ms ∧
        List.Forall₂ Node.Shuffled ns ms := by
  induction ks with
  | nil => exact Or.inr ⟨[], [], rfl, rfl, .nil⟩
  | cons k ks ih =>
    rw [Graph.resolveAll, Graph.resolveAll]
    cases hm : g.reachable? k with
    | none =>
      have hn : h.reachable? k = none := by
        cases hn : h.reachable? k with
        | none => rfl
        | some n =>
          obtain ⟨m, hm', -⟩ := hs.symm.reachable? hn
          rw [hm'] at hm
          cases hm
      exact Or.inl ⟨_, rfl, by rw [hn]⟩
    | some m =>
      obtain ⟨n, hn, hmn⟩ := hs.reachable? hm
      rw [hn]
      rcases ih with ⟨e, hg, hh⟩ | ⟨ns, ms, hg, hh, hns⟩
      · exact Or.inl ⟨e, by rw [hg]; rfl, by rw [hh]; rfl⟩
      · exact Or.inr ⟨m :: ns, n :: ms, by rw [hg]; rfl, by rw [hh]; rfl, .cons hmn hns⟩

/-- **A walk does not depend on the order of edges**: it visits corresponding nodes in the same
order. -/
theorem Shuffled.walk (fuel : Nat) (p : Pending) (hns : List.Forall₂ Node.Shuffled ns ms) :
    List.Forall₂ Node.Shuffled (g.walk fuel p ns).1 (h.walk fuel p ms).1 ∧ (h.walk fuel p ms).2 =
      (g.walk fuel p ns).2 := by
  induction fuel generalizing p ns ms with
  | zero => exact ⟨.nil, rfl⟩
  | succ fuel ih =>
    cases hns with
    | nil => exact ⟨.nil, rfl⟩
    | @cons m n _ _ hmn hns =>
      rw [Graph.walk, Graph.walk, hmn.targets, hmn.key]
      dsimp only
      rcases hs.resolveAll m.key (Key.sort (release p (targets m)).2) with
        ⟨e, hg, hh⟩ | ⟨next, next', hg, hh, hnext⟩
      · rw [hg, hh]
        exact ⟨.cons hmn .nil, rfl⟩
      · rw [hg, hh]
        obtain ⟨hrest, hfailure⟩ := ih (release p (targets m)).1 (List.rel_append hns hnext)
        exact ⟨.cons hmn hrest, hfailure⟩

/-- **Both graphs are walked in the same order**, and both walks end in the same way. -/
theorem Shuffled.visit : List.Forall₂ Node.Shuffled g.visit.1 h.visit.1 ∧ h.visit.2 =
    g.visit.2 := by
  unfold Graph.visit
  rw [hs.order]
  cases hfirst : g.order.head?.bind g.find? with
  | none =>
    have hnone : g.order.head?.bind h.find? = none := by
      cases hhead : g.order.head? with
      | none => rfl
      | some k =>
        rw [hhead] at hfirst
        exact hs.find?_eq_none hfirst
    rw [hnone]
    exact ⟨.nil, rfl⟩
  | some m =>
    obtain ⟨k, hhead, hm⟩ := Option.bind_eq_some_iff.mp hfirst
    obtain ⟨n, hn, hmn⟩ := hs.find? hm
    rw [hhead, Option.bind_some, hn]
    dsimp only
    rw [hs.pending, ← hs.nodes.length_eq, show h.size = g.size from congrArg List.length hs.order]
    obtain ⟨hvisited, hfailure⟩ := hs.walk (g.nodes.length + 2) g.pending (.cons hmn .nil)
    have hlength : ((h.walk (g.nodes.length + 2) g.pending [n]).1.filter isEvent).length =
        ((g.walk (g.nodes.length + 2) g.pending [m]).1.filter isEvent).length := by
      rw [← List.countP_eq_length_filter, ← List.countP_eq_length_filter]
      generalize (g.walk (g.nodes.length + 2) g.pending [m]).1 = ns at hvisited
      generalize (h.walk (g.nodes.length + 2) g.pending [n]).1 = ms at hvisited
      induction hvisited with
      | nil => rfl
      | @cons m n _ _ hmn _ ih =>
        rw [List.countP_cons, List.countP_cons, ih, isEvent, isEvent, hmn.kind]
    rw [hlength, hfailure]
    cases (g.walk (g.nodes.length + 2) g.pending [m]).2 with
    | some e => exact ⟨hvisited, rfl⟩
    | none => exact ⟨hvisited, rfl⟩

end Walking

/-! ### Clocks -/

/-- Whichever predecessor comes first, the clocks of all of them are merged into the same one. -/
theorem mergePredecessors_of_perm {clocks : Clocks} {c c' : Clock} {es es' : Edges}
    (hperm : es.Perm es') (hc : mergePredecessors clocks c es = .ok c') :
    mergePredecessors clocks c es' = .ok c' := by
  induction hperm generalizing c c' with
  | nil => exact hc
  | cons e _ ih =>
    rw [mergePredecessors] at hc ⊢
    split
    · rename_i hr
      rw [if_pos hr] at hc
      split at hc
      · cases hc
      · rename_i d hd
        exact ih hc
    · rename_i hr
      rw [if_neg hr] at hc
      exact ih hc
  | swap e e' es =>
    simp only [mergePredecessors] at hc ⊢
    cases he : e.1.ordersTime <;> cases he' : e'.1.ordersTime <;>
      cases hd : clocks.lookup e.2 <;> cases hd' : clocks.lookup e'.2 <;>
      simp only [he, he', hd, hd', if_true, if_false, Bool.false_eq_true, reduceCtorEq] at hc ⊢ <;>
      first | exact hc | rw [Clock.merge_right_comm]; exact hc
  | trans _ _ ih ih' => exact ih' (ih hc)

/-- The new clock of a node does not depend on the order of its edges. -/
theorem clockFrom_of_shuffled {clocks : Clocks} {o : Option Clock} (hmn : m.Shuffled n)
    (ho : clockFrom clocks m = .ok o) : clockFrom clocks n = .ok o := by
  unfold clockFrom at ho ⊢
  rw [hmn.key, hmn.kind, hmn.predecessors]
  split
  · rename_i hinit
    rwa [if_pos hinit] at ho
  · rename_i hinit
    rw [if_neg hinit] at ho
    split
    · rename_i hblock
      rwa [if_pos hblock] at ho
    · rename_i hblock
      rw [if_neg hblock] at ho
      split at ho
      · cases ho
      · rename_i po _ hpo
        split at ho
        · cases ho
        · rename_i c hc
          cases hmerge : mergePredecessors clocks (c.successor m.key.task.toNat) m.pred with
          | error e =>
            rw [hmerge] at ho
            cases ho
          | ok c' =>
            rw [mergePredecessors_of_perm hmn.pred.perm.symm hmerge]
            rwa [hmerge] at ho

/-- Clocks that are computed anew along corresponding nodes are the same. -/
theorem Shuffled.recomputeFrom (hs : Shuffled g h) (clocks : Clocks)
    (hns : List.Forall₂ Node.Shuffled ns ms) {g' : Graph}
    (hg : Graph.recomputeFrom clocks ns g = .ok () g') :
    ∃ h', Graph.recomputeFrom clocks ms h = .ok () h' ∧ Shuffled g' h' := by
  induction hns generalizing clocks g h with
  | nil =>
    cases hg
    exact ⟨h, rfl, hs⟩
  | @cons m n ns ms hmn _ ih =>
    rw [Graph.recomputeFrom] at hg
    cases hclock : clockFrom clocks m with
    | error e =>
      rw [hclock] at hg
      cases hg
    | ok o =>
      rw [hclock] at hg
      rw [Graph.recomputeFrom, clockFrom_of_shuffled hmn hclock]
      cases o with
      | none => exact ih hs clocks hg
      | some c =>
        rw [hmn.key]
        refine ih (hs.modifyNode (fun m n hmn => ?_) m.key) _ hg
        exact ⟨hmn.event, rfl, hmn.attributes, hmn.succ, hmn.pred⟩

/-- A clock that cannot be computed is a broken rule, not a cycle. -/
theorem mergePredecessors_error {clocks : Clocks} {c : Clock} {es : Edges} {e : Error}
    (he : mergePredecessors clocks c es = .error e) : ∃ cause, e = .corrupt cause := by
  induction es generalizing c with
  | nil => cases he
  | cons e' es ih =>
    rw [mergePredecessors] at he
    split at he
    · split at he
      · cases he
        exact ⟨_, rfl⟩
      · exact ih he
    · exact ih he

/-- A missing clock is a sign of a corrupt graph. -/
theorem clockFrom_error {clocks : Clocks} {e : Error} (he : clockFrom clocks n = .error e) :
    ∃ cause, e = .corrupt cause := by
  unfold clockFrom at he
  split at he
  · cases he
  · split at he
    · cases he
    · split at he
      · cases he
        exact ⟨_, rfl⟩
      · split at he
        · cases he
          exact ⟨_, rfl⟩
        · rename_i c _
          cases hmerge : mergePredecessors clocks (c.successor n.key.task.toNat) n.pred with
          | error e' =>
            rw [hmerge] at he
            cases he
            exact mergePredecessors_error hmerge
          | ok c' =>
            rw [hmerge] at he
            cases he

/-- There is no other reason for which computing clocks anew fails. -/
theorem recomputeFrom_error {clocks : Clocks} {e : Error} {g' : Graph}
    (he : recomputeFrom clocks ns g = .error e g') :
    ∃ cause, e = .corrupt cause := by
  induction ns generalizing clocks g with
  | nil => cases he
  | cons n ns ih =>
    rw [recomputeFrom] at he
    cases hclock : clockFrom clocks n with
    | error e' =>
      rw [hclock] at he
      cases he
      exact clockFrom_error hclock
    | ok o =>
      rw [hclock] at he
      cases o with
      | none => exact ih he
      | some c => exact ih he

/-- The clocks are computed, and then the walk may be found to have ended early. -/
theorem recomputeClocks_eq (g : Graph) : recomputeClocks g =
    match recomputeFrom [] g.visit.1 g with
    | .error e g' => .error e g'
    | .ok _ g' => match g.visit.2 with
      | some e => .error e g'
      | none => .ok () g' := by
  simp only [recomputeClocks, bind, EStateM.bind, get, getThe, MonadStateOf.get, EStateM.get]
  cases recomputeFrom [] g.visit.1 g with
  | error e g' => rfl
  | ok x g' => cases g.visit.2 <;> rfl

/-- In a regular graph every clock can be computed that is asked for. -/
theorem Regular.recomputeFrom (hg : g.Regular) :
    ∃ g', Graph.recomputeFrom [] g.visit.1 g = .ok () g' := by
  cases hrun : Graph.recomputeFrom [] g.visit.1 g with
  | ok x g' => exact ⟨g', rfl⟩
  | error e g' =>
    obtain ⟨cause, rfl⟩ := recomputeFrom_error hrun
    have heq := recomputeClocks_eq g
    rw [hrun] at heq
    by_cases hacyclic : g.Acyclic
    · obtain ⟨g₁, hok, -⟩ := hg.numbered.recomputeClocks hacyclic
      rw [heq] at hok
      cases hok
    · obtain ⟨i, j, g₁, hcycle⟩ := hg.numbered.recomputeClocks_cycle hacyclic
      rw [heq] at hcycle
      cases hcycle

/-- The outcomes of an edit on two graphs: the same value or the same complaint, and graphs that are
shuffled. -/
inductive SameOutcome {α : Type} :
    EStateM.Result Error Graph α → EStateM.Result Error Graph α → Prop
  | ok (x : α) {g h : Graph} (hs : Shuffled g h) : SameOutcome (.ok x g) (.ok x h)
  | error (e : Error) {g h : Graph} (hs : Shuffled g h) : SameOutcome (.error e g) (.error e h)

/-- **Clocks computed anew do not depend on the order of relations**: all of them are the same, also
those computed before the walk has ended early, and so is the complaint. -/
theorem Regular.recomputeClocks_shuffled (hg : g.Regular) (hs : Shuffled g h) :
    SameOutcome (Graph.recomputeClocks g) (Graph.recomputeClocks h) := by
  obtain ⟨hvisited, hfailure⟩ := hs.visit
  obtain ⟨g', hrun⟩ := hg.recomputeFrom
  obtain ⟨h', hrun', hs'⟩ := hs.recomputeFrom [] hvisited hrun
  rw [recomputeClocks_eq g, recomputeClocks_eq h, hrun, hrun', hfailure]
  cases g.visit.2 with
  | some e => exact .error e hs'
  | none => exact .ok () hs'

end Graph

end Interleaving
