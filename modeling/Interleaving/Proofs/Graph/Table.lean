import Interleaving.Graph.Basic

/-!
# The table of nodes

A graph is read through its table: which node a key has (`Interleaving.Graph.find?`), and which
edges stand at it. An edge is kept at both of its ends, so there are two ways to ask for it,
`Interleaving.Graph.Out` at the end where it starts and `Interleaving.Graph.In` at the end it points
to. In a **tidy** graph (`Interleaving.Graph.Tidy`) no key and no edge is listed twice, and an edge
is known where it points to. The node where it starts may be gone: a join keeps the edge from a
blocking label that has been taken off. When it is there, the graph is **mirrored**
(`Interleaving.Graph.Mirrored`) and the two ways agree.

Adding and removing an edge keep a graph tidy (`Interleaving.Graph.Tidy.link`,
`Interleaving.Graph.Tidy.unlink`) and change that one edge (`Interleaving.Graph.in_link`,
`Interleaving.Graph.in_unlink`).
-/

namespace Interleaving

/-! ### Lists of pairs -/

section Lookup

variable {α β : Type} [BEq α] [LawfulBEq α] [DecidableEq α]

/-- Giving a name another value changes what is found under it, if something was. -/
theorem lookup_map_replace (l : List (α × β)) (k : α) (v : β) (k' : α) :
    (l.map fun e => if e.1 = k then (k, v) else e).lookup k' =
      if k' = k then (l.lookup k).map fun _ => v else l.lookup k' := by
  induction l with
  | nil => simp
  | cons e l ih =>
    obtain ⟨a, b⟩ := e
    rw [List.map_cons, List.lookup_cons]
    by_cases ha : a = k
    · subst ha
      by_cases hk : k' = a
      · subst hk
        simp
      · simp [List.lookup_cons, hk, beq_eq_false_iff_ne.mpr hk, ih]
    · by_cases hka : k' = a
      · subst hka
        simp [ha]
      · have hne : (k' == a) = false := beq_eq_false_iff_ne.mpr hka
        have hne' : (k == a) = false := beq_eq_false_iff_ne.mpr (Ne.symm ha)
        simp [List.lookup_cons, ha, hne, hne', ih]

end Lookup

namespace Edges

variable {es : Edges} {r r' : Relation} {k k' : Key}

/-- An inserted edge is there afterwards, besides those that were there. -/
theorem mem_insert : (r', k') ∈ es.insert r k ↔ (r', k') ∈ es ∨ r' = r ∧ k' = k := by
  unfold insert
  split
  · rename_i h
    have h : (r, k) ∈ es := by simpa using h
    constructor
    · exact Or.inl
    · rintro (h' | ⟨rfl, rfl⟩)
      · exact h'
      · exact h
  · rw [List.mem_append, List.mem_singleton, Prod.mk.injEq]

/-- Erasing takes one edge away. -/
theorem mem_erase : (r', k') ∈ es.erase r k ↔ (r', k') ∈ es ∧ ¬(r' = r ∧ k' = k) := by
  unfold erase
  rw [List.mem_filter, bne_iff_ne, ne_eq, Prod.mk.injEq]

/-- The edges to some events are gone, and no others. -/
theorem mem_without {ks : List Key} : (r, k) ∈ es.without ks ↔ (r, k) ∈ es ∧ k ∉ ks := by
  unfold without
  simp

/-- An edge that is known already is not inserted again. -/
theorem nodup_insert (h : es.Nodup) : (es.insert r k).Nodup := by
  unfold insert
  split
  · exact h
  · rename_i hmem
    rw [List.nodup_append]
    refine ⟨h, by simp, ?_⟩
    rintro a ha b hb rfl
    rw [List.mem_singleton.mp hb] at ha
    exact hmem (by simpa using ha)

theorem nodup_erase (h : es.Nodup) : (es.erase r k).Nodup := List.Pairwise.filter _ h

theorem nodup_without (h : es.Nodup) (ks : List Key) : (es.without ks).Nodup :=
  List.Pairwise.filter _ h

/-- The neighbours under a relation are the keys of its edges. -/
theorem mem_keys : k ∈ es.keys r ↔ (r, k) ∈ es := by
  unfold keys
  rw [List.mem_filterMap]
  constructor
  · rintro ⟨⟨r', k'⟩, hmem, heq⟩
    dsimp only at heq
    split at heq
    · rename_i hr
      cases heq
      exact hr ▸ hmem
    · cases heq
  · exact fun hmem => ⟨(r, k), hmem, by simp⟩

end Edges

namespace Graph

variable {g : Graph} {a b c d k k' : Key} {n : Node} {r r' : Relation}

/-- A node is found under its own key. -/
theorem key_of_find? (h : g.find? k = some n) : n.key = k := by
  have h := List.find?_some h
  simpa using h

theorem mem_of_find? (h : g.find? k = some n) : n ∈ g.nodes := List.mem_of_find?_eq_some h

/-- Where keys are unique, every node is found under its key. -/
theorem find?_of_mem (hkeys : (g.nodes.map (·.key)).Nodup) (hn : n ∈ g.nodes) :
    g.find? n.key = some n := by
  unfold find?
  have hgen : ∀ l : List Node, (l.map (·.key)).Nodup → n ∈ l →
      l.find? (fun m => m.key == n.key) = some n := by
    intro l
    induction l with
    | nil => simp
    | cons m l ih =>
      intro hnodup hmem
      rw [List.map_cons, List.nodup_cons] at hnodup
      rcases List.mem_cons.mp hmem with rfl | hmem
      · simp
      · have hne : m.key ≠ n.key := fun heq =>
          hnodup.1 (heq ▸ List.mem_map.mpr ⟨n, hmem, rfl⟩)
        rw [List.find?_cons_of_neg (by simpa using hne)]
        exact ih hnodup.2 hmem
  exact hgen g.nodes hkeys hn

/-- The event with a key. -/
def event? (g : Graph) (k : Key) : Option Event := (g.find? k).map (·.event)

/-- A key names a node of the table. -/
def Has (g : Graph) (k : Key) : Prop := (g.find? k).isSome = true

theorem Has.exists (h : g.Has k) : ∃ n, g.find? k = some n := Option.isSome_iff_exists.mp h

theorem has_of_find? (h : g.find? k = some n) : g.Has k := by
  simp [Has, h]

/-- A graph has a node just when it has an event under that key. -/
theorem has_iff_event? : g.Has k ↔ (g.event? k).isSome = true := by
  simp [Has, event?]

/-- An edge, at the end where it starts. -/
def Out (g : Graph) (r : Relation) (a b : Key) : Prop := ∃ n, g.find? a = some n ∧ (r, b) ∈ n.succ

/-- An edge, at the end that it points to. -/
def In (g : Graph) (r : Relation) (a b : Key) : Prop := ∃ n, g.find? b = some n ∧ (r, a) ∈ n.pred

instance : Decidable (g.Out r a b) :=
  decidable_of_iff (((g.find? a).any fun n => n.succ.contains (r, b)) = true)
    (by simp [Out, Option.any_eq_true])

/-- No key and no edge is listed twice, and every edge is known where it points to. -/
structure Tidy (g : Graph) : Prop where
  keys : (g.nodes.map (·.key)).Nodup
  known : ∀ {r a b}, g.Out r a b → g.In r a b
  pred : ∀ {k n}, g.find? k = some n → n.pred.Nodup
  succ : ∀ {k n}, g.find? k = some n → n.succ.Nodup

/-- Every edge is known where it starts. -/
def Mirrored (g : Graph) : Prop := ∀ r a b, g.In r a b → g.Out r a b

theorem has_of_out (h : g.Out r a b) : g.Has a := by
  obtain ⟨n, hn, -⟩ := h
  exact has_of_find? hn

theorem has_of_in (h : g.In r a b) : g.Has b := by
  obtain ⟨n, hn, -⟩ := h
  exact has_of_find? hn

/-- Incoming edges are read off the node at which they end. -/
theorem in_iff (h : g.find? b = some n) : g.In r a b ↔ (r, a) ∈ n.pred := by
  constructor
  · rintro ⟨m, hm, hmem⟩
    rw [h] at hm
    cases hm
    exact hmem
  · exact fun hmem => ⟨n, h, hmem⟩

/-- Outgoing edges are read off the node at which they start. -/
theorem out_iff (h : g.find? a = some n) : g.Out r a b ↔ (r, b) ∈ n.succ := by
  constructor
  · rintro ⟨m, hm, hmem⟩
    rw [h] at hm
    cases hm
    exact hmem
  · exact fun hmem => ⟨n, h, hmem⟩

theorem mem_predecessors (h : g.find? b = some n) : a ∈ n.predecessors r ↔ g.In r a b := by
  rw [in_iff h]
  exact Edges.mem_keys

theorem mem_successors (h : g.find? a = some n) : b ∈ n.successors r ↔ g.Out r a b := by
  rw [out_iff h]
  exact Edges.mem_keys

/-- An edge leads to a node. -/
theorem Tidy.has_target (hg : g.Tidy) (h : g.Out r a b) : g.Has b := has_of_in (hg.known h)

/-! ### Changing one node -/

/-- **A changed node**: nothing else changes, as long as the key stays. -/
theorem find?_modifyNode {f : Node → Node} (hf : ∀ n, (f n).key = n.key) :
    (g.modifyNode k f).find? k' = (g.find? k').map fun n => if k' = k then f n else n := by
  have hkey : ∀ n : Node, (if n.key = k then f n else n).key = n.key := by
    intro n
    split
    · exact hf n
    · rfl
  have hcomp : ((fun n : Node => n.key == k') ∘ fun n : Node => if n.key = k then f n else n) =
      fun n : Node => n.key == k' := by
    funext n
    simp only [Function.comp_apply, hkey]
  unfold find? modifyNode
  dsimp only
  rw [List.find?_map, hcomp]
  cases hfind : g.nodes.find? (fun n => n.key == k') with
  | none => rfl
  | some n =>
    have hn : n.key = k' := key_of_find? (g := g) hfind
    rw [Option.map_some, Option.map_some, hn]

theorem keys_modifyNode {f : Node → Node} (hf : ∀ n, (f n).key = n.key) :
    (g.modifyNode k f).nodes.map (·.key) = g.nodes.map (·.key) := by
  unfold modifyNode
  rw [List.map_map]
  refine List.map_congr_left fun n _ => ?_
  dsimp only [Function.comp_apply]
  split
  · exact hf n
  · rfl

/-- A change of a node that keeps its key and its edges. -/
structure KeepsEdges (f : Node → Node) : Prop where
  key : ∀ n, (f n).key = n.key
  succ : ∀ n, (f n).succ = n.succ
  pred : ∀ n, (f n).pred = n.pred

/-- A change that keeps edges keeps what leads to a node. -/
theorem KeepsEdges.in_iff {f : Node → Node} (hf : KeepsEdges f) : (g.modifyNode k f).In r a b ↔
    g.In r a b := by
  have hpred : ∀ n : Node, (if b = k then f n else n).pred = n.pred := by
    intro n
    split
    · exact hf.pred n
    · rfl
  simp only [In, find?_modifyNode hf.key, Option.map_eq_some_iff]
  constructor
  · rintro ⟨_, ⟨n, hn, rfl⟩, hmem⟩
    exact ⟨n, hn, hpred n ▸ hmem⟩
  · rintro ⟨n, hn, hmem⟩
    exact ⟨_, ⟨n, hn, rfl⟩, (hpred n).symm ▸ hmem⟩

/-- A change that keeps edges keeps what leaves a node. -/
theorem KeepsEdges.out_iff {f : Node → Node} (hf : KeepsEdges f) : (g.modifyNode k f).Out r a b ↔
    g.Out r a b := by
  have hsucc : ∀ n : Node, (if a = k then f n else n).succ = n.succ := by
    intro n
    split
    · exact hf.succ n
    · rfl
  simp only [Out, find?_modifyNode hf.key, Option.map_eq_some_iff]
  constructor
  · rintro ⟨_, ⟨n, hn, rfl⟩, hmem⟩
    exact ⟨n, hn, hsucc n ▸ hmem⟩
  · rintro ⟨n, hn, hmem⟩
    exact ⟨_, ⟨n, hn, rfl⟩, (hsucc n).symm ▸ hmem⟩

theorem KeepsEdges.tidy {f : Node → Node} (hf : KeepsEdges f) (h : g.Tidy) :
    (g.modifyNode k f).Tidy := by
  have hnodes : ∀ {k' m}, (g.modifyNode k f).find? k' = some m → m.pred.Nodup ∧ m.succ.Nodup := by
    intro k' m hm
    rw [find?_modifyNode hf.key, Option.map_eq_some_iff] at hm
    obtain ⟨n, hn, rfl⟩ := hm
    split
    · rw [hf.pred, hf.succ]
      exact ⟨h.pred hn, h.succ hn⟩
    · exact ⟨h.pred hn, h.succ hn⟩
  refine ⟨?_, fun ho => hf.in_iff.mpr (h.known (hf.out_iff.mp ho)), fun hm => (hnodes hm).1,
    fun hm => (hnodes hm).2⟩
  rw [keys_modifyNode hf.key]
  exact h.keys

/-! ### Adding an edge -/

@[simp] theorem link_order (g : Graph) (a b : Key) (r : Relation) :
    (g.link a b r).order = g.order := by
  unfold link
  split <;> rfl

@[simp] theorem link_tasks (g : Graph) (a b : Key) (r : Relation) :
    (g.link a b r).tasks = g.tasks := by
  unfold link
  split <;> rfl

@[simp] theorem link_chains (g : Graph) (a b : Key) (r : Relation) :
    (g.link a b r).chains = g.chains := by
  unfold link
  split <;> rfl

@[simp] theorem link_waiting (g : Graph) (a b : Key) (r : Relation) :
    (g.link a b r).waiting = g.waiting := by
  unfold link
  split <;> rfl

@[simp] theorem keys_link (g : Graph) (a b : Key) (r : Relation) :
    (g.link a b r).nodes.map (·.key) = g.nodes.map (·.key) := by
  unfold link
  dsimp only
  split
  · rw [keys_modifyNode, keys_modifyNode, keys_modifyNode] <;> exact fun _ => rfl
  · rw [keys_modifyNode, keys_modifyNode] <;> exact fun _ => rfl

/-- What adding an edge makes of a node. -/
def linked (g : Graph) (a b : Key) (r : Relation) (k : Key) (n : Node) : Node :=
  { n with
    succ := if k = a then n.succ.insert r b else n.succ
    pred := if k = b then n.pred.insert r a else n.pred
    clock := if k = b ∧ r.ordersTime = true then n.clock.merge (g.clockOf a) else n.clock }

/-- **What an edge changes**: its two ends, and nothing else. -/
theorem find?_link : (g.link a b r).find? k = (g.find? k).map (g.linked a b r k) := by
  unfold link
  dsimp only
  split
  · rename_i hr
    rw [find?_modifyNode (by exact fun _ => rfl), find?_modifyNode (by exact fun _ => rfl),
      find?_modifyNode (by exact fun _ => rfl), Option.map_map, Option.map_map]
    congr 1
    funext n
    by_cases ha : k = a
    · subst ha
      by_cases hb : k = b
      · subst hb
        simp [linked, hr]
      · simp [linked, hb, hr]
    · by_cases hb : k = b
      · subst hb
        simp [linked, ha, hr]
      · simp [linked, ha, hb, hr]
  · rename_i hr
    rw [find?_modifyNode (by exact fun _ => rfl), find?_modifyNode (by exact fun _ => rfl),
      Option.map_map]
    congr 1
    funext n
    by_cases ha : k = a
    · subst ha
      by_cases hb : k = b
      · subst hb
        simp [linked, hr]
      · simp [linked, hb, hr]
    · by_cases hb : k = b
      · subst hb
        simp [linked, ha, hr]
      · simp [linked, ha, hb, hr]

/-- An edge leaves events as they are. -/
@[simp] theorem event?_link : (g.link a b r).event? k = g.event? k := by
  unfold event?
  rw [find?_link, Option.map_map]
  rfl

/-- An edge adds no node. -/
@[simp] theorem has_link : (g.link a b r).Has k ↔ g.Has k := by
  rw [has_iff_event?, event?_link, ← has_iff_event?]

/-- **Adding an edge adds it where it points to.** -/
theorem in_link (hb : g.Has b) :
    (g.link a b r).In r' c d ↔ g.In r' c d ∨ r' = r ∧ c = a ∧ d = b := by
  unfold In
  simp only [find?_link, Option.map_eq_some_iff]
  by_cases hd : d = b
  · subst hd
    obtain ⟨n, hn⟩ := hb.exists
    simp only [hn, Option.some.injEq]
    constructor
    · rintro ⟨m, ⟨m', rfl, rfl⟩, hmem⟩
      rw [linked, if_pos rfl, Edges.mem_insert] at hmem
      rcases hmem with hmem | ⟨rfl, rfl⟩
      · exact Or.inl ⟨n, rfl, hmem⟩
      · exact Or.inr ⟨rfl, rfl, trivial⟩
    · intro h
      refine ⟨_, ⟨n, rfl, rfl⟩, ?_⟩
      rw [linked, if_pos rfl, Edges.mem_insert]
      rcases h with ⟨m, rfl, hmem⟩ | ⟨rfl, rfl, -⟩
      · exact Or.inl hmem
      · exact Or.inr ⟨rfl, rfl⟩
  · constructor
    · rintro ⟨m, ⟨m', hm', rfl⟩, hmem⟩
      rw [linked, if_neg hd] at hmem
      exact Or.inl ⟨m', hm', hmem⟩
    · rintro (⟨m, hm, hmem⟩ | ⟨-, -, heq⟩)
      · refine ⟨_, ⟨m, hm, rfl⟩, ?_⟩
        rw [linked, if_neg hd]
        exact hmem
      · exact absurd heq hd

/-- A new edge leaves its source, provided that this is a node. -/
theorem out_link (ha : g.Has a) :
    (g.link a b r).Out r' c d ↔ g.Out r' c d ∨ r' = r ∧ c = a ∧ d = b := by
  unfold Out
  simp only [find?_link, Option.map_eq_some_iff]
  by_cases hc : c = a
  · subst hc
    obtain ⟨n, hn⟩ := ha.exists
    simp only [hn, Option.some.injEq]
    constructor
    · rintro ⟨m, ⟨m', rfl, rfl⟩, hmem⟩
      rw [linked, if_pos rfl, Edges.mem_insert] at hmem
      rcases hmem with hmem | ⟨rfl, rfl⟩
      · exact Or.inl ⟨n, rfl, hmem⟩
      · exact Or.inr ⟨rfl, trivial, rfl⟩
    · intro h
      refine ⟨_, ⟨n, rfl, rfl⟩, ?_⟩
      rw [linked, if_pos rfl, Edges.mem_insert]
      rcases h with ⟨m, rfl, hmem⟩ | ⟨rfl, -, rfl⟩
      · exact Or.inl hmem
      · exact Or.inr ⟨rfl, rfl⟩
  · constructor
    · rintro ⟨m, ⟨m', hm', rfl⟩, hmem⟩
      rw [linked, if_neg hc] at hmem
      exact Or.inl ⟨m', hm', hmem⟩
    · rintro (⟨m, hm, hmem⟩ | ⟨-, heq, -⟩)
      · refine ⟨_, ⟨m, hm, rfl⟩, ?_⟩
        rw [linked, if_neg hc]
        exact hmem
      · exact absurd heq hc

/-- **A tidy graph stays tidy when an edge is added.** -/
theorem Tidy.link (h : g.Tidy) (ha : g.Has a) (hb : g.Has b) : (g.link a b r).Tidy where
  keys := by
    rw [keys_link]
    exact h.keys
  known := by
    intro r' c d
    rw [out_link ha, in_link hb]
    exact Or.imp_left h.known
  pred := by
    intro k n hn
    rw [find?_link, Option.map_eq_some_iff] at hn
    obtain ⟨m, hm, rfl⟩ := hn
    unfold linked
    dsimp only
    split
    · exact Edges.nodup_insert (h.pred hm)
    · exact h.pred hm
  succ := by
    intro k n hn
    rw [find?_link, Option.map_eq_some_iff] at hn
    obtain ⟨m, hm, rfl⟩ := hn
    unfold linked
    dsimp only
    split
    · exact Edges.nodup_insert (h.succ hm)
    · exact h.succ hm

/-- The target of an edge that orders time learns what its source knows. -/
theorem clockOf_link (hb : g.Has b) :
    (g.link a b r).clockOf k =
      if k = b ∧ r.ordersTime = true then (g.clockOf b).merge (g.clockOf a) else g.clockOf k := by
  unfold clockOf
  rw [find?_link, Option.map_map]
  by_cases hk : k = b ∧ r.ordersTime = true
  · obtain ⟨rfl, hr⟩ := hk
    obtain ⟨n, hn⟩ := hb.exists
    simp [hn, linked, hr, clockOf]
  · rw [if_neg hk]
    congr 2
    funext n
    simp [linked, hk]

/-! ### Removing an edge -/

@[simp] theorem unlink_order (g : Graph) (a b : Key) (r : Relation) :
    (g.unlink a b r).order = g.order := rfl

@[simp] theorem unlink_tasks (g : Graph) (a b : Key) (r : Relation) :
    (g.unlink a b r).tasks = g.tasks := rfl

@[simp] theorem unlink_chains (g : Graph) (a b : Key) (r : Relation) :
    (g.unlink a b r).chains = g.chains := rfl

@[simp] theorem unlink_waiting (g : Graph) (a b : Key) (r : Relation) :
    (g.unlink a b r).waiting = g.waiting := rfl

@[simp] theorem keys_unlink (g : Graph) (a b : Key) (r : Relation) :
    (g.unlink a b r).nodes.map (·.key) = g.nodes.map (·.key) := by
  unfold unlink
  rw [keys_modifyNode, keys_modifyNode] <;> exact fun _ => rfl

/-- What removing an edge makes of a node. -/
def unlinked (a b : Key) (r : Relation) (k : Key) (n : Node) : Node :=
  { n with
    succ := if k = a then n.succ.erase r b else n.succ
    pred := if k = b then n.pred.erase r a else n.pred }

/-- **What taking an edge away changes**: its two ends, and nothing else. -/
theorem find?_unlink : (g.unlink a b r).find? k = (g.find? k).map (unlinked a b r k) := by
  unfold unlink
  dsimp only
  rw [find?_modifyNode (by exact fun _ => rfl), find?_modifyNode (by exact fun _ => rfl),
    Option.map_map]
  congr 1
  funext n
  by_cases ha : k = a
  · subst ha
    by_cases hb : k = b
    · subst hb
      simp [unlinked]
    · simp [unlinked, hb]
  · by_cases hb : k = b
    · subst hb
      simp [unlinked, ha]
    · simp [unlinked, ha, hb]

/-- Taking an edge away leaves events as they are. -/
@[simp] theorem event?_unlink : (g.unlink a b r).event? k = g.event? k := by
  unfold event?
  rw [find?_unlink, Option.map_map]
  rfl

@[simp] theorem has_unlink : (g.unlink a b r).Has k ↔ g.Has k := by
  rw [has_iff_event?, event?_unlink, ← has_iff_event?]

/-- Clocks are not turned back when an edge goes. -/
@[simp] theorem clockOf_unlink : (g.unlink a b r).clockOf k = g.clockOf k := by
  unfold clockOf
  rw [find?_unlink, Option.map_map]
  rfl

/-- **Removing an edge removes it where it points to.** -/
theorem in_unlink : (g.unlink a b r).In r' c d ↔ g.In r' c d ∧ ¬(r' = r ∧ c = a ∧ d = b) := by
  unfold In
  simp only [find?_unlink, Option.map_eq_some_iff]
  by_cases hd : d = b
  · subst hd
    constructor
    · rintro ⟨m, ⟨m', hm', rfl⟩, hmem⟩
      rw [unlinked, if_pos rfl, Edges.mem_erase] at hmem
      exact ⟨⟨m', hm', hmem.1⟩, fun ⟨hr, hc, _⟩ => hmem.2 ⟨hr, hc⟩⟩
    · rintro ⟨⟨m, hm, hmem⟩, hne⟩
      refine ⟨_, ⟨m, hm, rfl⟩, ?_⟩
      rw [unlinked, if_pos rfl, Edges.mem_erase]
      exact ⟨hmem, fun ⟨hr, hc⟩ => hne ⟨hr, hc, rfl⟩⟩
  · constructor
    · rintro ⟨m, ⟨m', hm', rfl⟩, hmem⟩
      rw [unlinked, if_neg hd] at hmem
      exact ⟨⟨m', hm', hmem⟩, fun ⟨_, _, heq⟩ => hd heq⟩
    · rintro ⟨⟨m, hm, hmem⟩, -⟩
      refine ⟨_, ⟨m, hm, rfl⟩, ?_⟩
      rw [unlinked, if_neg hd]
      exact hmem

/-- The edge that was taken away no longer leaves its source. -/
theorem out_unlink : (g.unlink a b r).Out r' c d ↔ g.Out r' c d ∧ ¬(r' = r ∧ c = a ∧ d = b) := by
  unfold Out
  simp only [find?_unlink, Option.map_eq_some_iff]
  by_cases hc : c = a
  · subst hc
    constructor
    · rintro ⟨m, ⟨m', hm', rfl⟩, hmem⟩
      rw [unlinked, if_pos rfl, Edges.mem_erase] at hmem
      exact ⟨⟨m', hm', hmem.1⟩, fun ⟨hr, _, hd⟩ => hmem.2 ⟨hr, hd⟩⟩
    · rintro ⟨⟨m, hm, hmem⟩, hne⟩
      refine ⟨_, ⟨m, hm, rfl⟩, ?_⟩
      rw [unlinked, if_pos rfl, Edges.mem_erase]
      exact ⟨hmem, fun ⟨hr, hd⟩ => hne ⟨hr, rfl, hd⟩⟩
  · constructor
    · rintro ⟨m, ⟨m', hm', rfl⟩, hmem⟩
      rw [unlinked, if_neg hc] at hmem
      exact ⟨⟨m', hm', hmem⟩, fun ⟨_, heq, _⟩ => hc heq⟩
    · rintro ⟨⟨m, hm, hmem⟩, -⟩
      refine ⟨_, ⟨m, hm, rfl⟩, ?_⟩
      rw [unlinked, if_neg hc]
      exact hmem

/-- **A tidy graph stays tidy when an edge is removed.** -/
theorem Tidy.unlink (h : g.Tidy) : (g.unlink a b r).Tidy where
  keys := by
    rw [keys_unlink]
    exact h.keys
  known := by
    intro r' c d
    rw [out_unlink, in_unlink]
    exact And.imp_left h.known
  pred := by
    intro k n hn
    rw [find?_unlink, Option.map_eq_some_iff] at hn
    obtain ⟨m, hm, rfl⟩ := hn
    unfold unlinked
    dsimp only
    split
    · exact Edges.nodup_erase (h.pred hm)
    · exact h.pred hm
  succ := by
    intro k n hn
    rw [find?_unlink, Option.map_eq_some_iff] at hn
    obtain ⟨m, hm, rfl⟩ := hn
    unfold unlinked
    dsimp only
    split
    · exact Edges.nodup_erase (h.succ hm)
    · exact h.succ hm

end Graph

end Interleaving
