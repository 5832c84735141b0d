import Interleaving.Proofs.Graph.Copy
import Interleaving.Proofs.Graph.Growth
import Interleaving.Proofs.Relocation.Basic

/-!
# Renaming the locations of a graph

The changes of a graph and the questions about it, before and after a renaming of locations: adding
events, blocking tasks, finding alternatives, changing what reads see, taking events out, and
computing clocks and orders anew. A change that can be refused is refused in the same way.
-/

namespace Interleaving.Graph

variable (ρ : Renaming) (g : Graph)

/-- A change made several times, before or after a renaming. -/
theorem relocate_foldl {α : Type} (f f' : Graph → α → Graph) (xs : List α)
    (h : ∀ g x, f' (g.relocate ρ) x = (f g x).relocate ρ) : xs.foldl f' (g.relocate ρ) =
      (xs.foldl f g).relocate ρ :=
  List.foldl_hom (relocate ρ) fun g x => (h g x)

/-! ### Adding events -/

@[simp] theorem relocate_ensureTask (task : Int) :
    (g.relocate ρ).ensureTask task = (g.ensureTask task).relocate ρ := (rfl)

/-- An event joins its task whatever its location is. -/
@[simp] theorem relocate_appendToTask (n : Node) :
    (g.relocate ρ).appendToTask (n.relocate ρ) = (g.appendToTask n).relocate ρ := by
  simp only [appendToTask, Node.relocate_key, relocate_lastOf, ← relocate_link]
  congr 1
  simp [relocate]

/-- The chain of a location is opened where the renamed one is. -/
@[simp] theorem relocate_opened (l : Location) :
    (g.relocate ρ).opened (ρ l) = (g.opened l).relocate ρ := by
  rw [opened, opened, ρ.apply_bne_none, relocate_chain?]
  split
  · exact relocate_setChain ρ g l [.init]
  · rfl

@[simp] theorem relocate_linkAll (ks : List Key) (b : Key) (r : Relation) :
    (g.relocate ρ).linkAll ks b r = (g.linkAll ks b r).relocate ρ :=
  relocate_foldl ρ g _ _ _ fun g a => relocate_link ρ g a b r

@[simp] theorem relocate_unordered (k : Key) : (g.relocate ρ).unordered k = g.unordered k := by
  rw [unordered, unordered, relocate_find?]
  cases g.find? k <;> rfl

@[simp] theorem relocate_putNode (n : Node) :
    (g.relocate ρ).putNode (n.relocate ρ) = (g.putNode n).relocate ρ := by
  simp [putNode, relocate]

/-- A new node is put behind the nodes of its task. -/
@[simp] theorem relocate_withEvent (e : Event) :
    (g.relocate ρ).withEvent (e.relocate ρ) = (g.withEvent e).relocate ρ := by
  have hentered : (g.relocate ρ).entered (e.relocate ρ) = (g.entered e).relocate ρ := rfl
  have hnode : (g.relocate ρ).nodeOf (e.relocate ρ) = (g.nodeOf e).relocate ρ := by
    rw [nodeOf, nodeOf, hentered, relocate_clockOf]
    rfl
  rw [withEvent, hnode, hentered, relocate_putNode, relocate_lastOf, relocate_link,
    relocate_unordered, relocate_linkAll]
  rfl

/-- **Adding an event commutes with renaming.** -/
@[simp] theorem relocate_insertEvent (e : Event) :
    (g.relocate ρ).insertEvent (e.relocate ρ) = (g.insertEvent e).relocate ρ := by
  rw [insertEvent_eq_withEvent, insertEvent_eq_withEvent, Event.relocate_location, relocate_opened,
    relocate_withEvent]

/-- A computation on a graph before and after a renaming. -/
abbrev EditRespects {α : Type} (φ : α → α) (x y : Edit α) : Prop := Respects φ (relocate ρ) x y

/-- It fails on the same events, too. -/
theorem addEvent_respects (e : Event) :
    EditRespects ρ id (addEvent e) (addEvent (e.relocate ρ)) := by
  unfold addEvent
  rw [Event.relocate_task]
  split
  · exact fun _ => rfl
  · refine (Respects.of_modify fun g => relocate_ensureTask ρ g _).bind fun _ =>
      Respects.get.bind fun g => ?_
    rw [relocate_lastKind?]
    split
    · exact Respects.throw _
    · exact Respects.throw _
    · dsimp only
      rw [relocate_insertEvent, relocate_lastOf]
      exact fun _ => rfl

/-! ### The life of threads -/

/-- The chain of thread starts stays where it is. -/
@[simp] theorem relocate_chain_thread : (g.relocate ρ).chain .thread = g.chain .thread :=
  relocate_chain ρ g .thread

@[simp] theorem relocate_setChain_thread (ks : List Key) :
    (g.relocate ρ).setChain .thread ks = (g.setChain .thread ks).relocate ρ :=
  relocate_setChain ρ g .thread ks

/-- A thread start is listed. -/
@[simp] theorem relocate_trackThreadCreates (k : Key) :
    (g.relocate ρ).trackThreadCreates k = (g.trackThreadCreates k).relocate ρ := by
  unfold trackThreadCreates
  rw [relocate_kindOf?, relocate_chain_thread]
  split
  · simp only [relocate_link, relocate_setChain_thread]
  · rfl

@[simp] theorem relocate_hasNodes (task : Int) :
    (g.relocate ρ).hasNodes task = g.hasNodes task := (rfl)

/-- A started thread is linked to the step that started it. -/
theorem relocate_trackThreadStarts (k : Key) :
    (g.relocate ρ).trackThreadStarts k = (g.trackThreadStarts k).map (relocate ρ) := by
  unfold trackThreadStarts
  rw [relocate_find?]
  cases g.find? k with
  | none => rfl
  | some n =>
    simp only [Option.map_some, Node.relocate_kind, Node.relocate_event, Event.relocate_startedBy?,
      relocate_hasNodes, relocate_lastOf, relocate_link]
    split
    · rfl
    · split
      · split <;> rfl
      · rfl

/-- A join is linked to the end of the thread that it waited for. -/
theorem relocate_trackThreadJoins (k : Key) :
    (g.relocate ρ).trackThreadJoins k = (g.trackThreadJoins k).map (relocate ρ) := by
  unfold trackThreadJoins
  rw [relocate_find?]
  cases g.find? k with
  | none => rfl
  | some n =>
    simp only [Option.map_some, Node.relocate_kind, Node.relocate_event, Event.relocate_joinedTask?,
      relocate_hasNodes, relocate_lastOf, relocate_link]
    split
    · rfl
    · split
      · split <;> rfl
      · rfl

/-! ### Blocking labels and locks -/

/-- A blocking label has no location. -/
@[simp] theorem relocate_block (task : Int) :
    (g.relocate ρ).block task = (g.block task).relocate ρ := by
  simp only [block, relocate_ensureTask, relocate_lastOf, relocate_taskKeys, relocate_clockOf]
  rw [← relocate_appendToTask]
  rfl

/-- The same tasks are blocked. -/
@[simp] theorem relocate_isBlocked (task : Int) :
    (g.relocate ρ).isBlocked task = g.isBlocked task := by
  rw [isBlocked, isBlocked, relocate_hasNodes, relocate_lastKind?]

/-- A label is taken away by its key. -/
@[simp] theorem relocate_dropLabel (task : Int) :
    (g.relocate ρ).dropLabel task = (g.dropLabel task).relocate ρ := by
  have hfilter : ∀ (g : Graph) (label : Key),
      (if (g.relocate ρ).order.contains label then g.relocate ρ
        else { g.relocate ρ with nodes := (g.relocate ρ).nodes.filter fun n => n.key != label }) =
      (if g.order.contains label then g
        else { g with nodes := g.nodes.filter fun n => n.key != label }).relocate ρ := by
    intro g label
    rw [relocate_order]
    split
    · rfl
    · simp [relocate, List.filter_map, Function.comp_def]
  let g₁ : Graph := { g with tasks := g.tasks.modify task.toNat List.dropLast }
  have hunlink := relocate_unlink ρ g₁ (g₁.lastOf task) (g.lastOf task) .programOrder
  refine Eq.trans ?_ (hfilter (g₁.unlink (g₁.lastOf task) (g.lastOf task) .programOrder)
    (g.lastOf task))
  rw [← hunlink]
  rfl

@[simp] theorem relocate_unblockedTasks : (g.relocate ρ).unblockedTasks = g.unblockedTasks := by
  simp only [unblockedTasks, relocate_tasks, relocate_isBlocked]

theorem relocate_waiting_lookup (l : Location) :
    (g.relocate ρ).waiting.lookup (ρ l) = g.waiting.lookup l :=
  (ρ.lookup id l g.waiting).trans (by simp)

/-- The same tasks wait for a lock. -/
@[simp] theorem relocate_waitingFor (l : Location) :
    (g.relocate ρ).waitingFor (ρ l) = g.waitingFor l := by
  rw [waitingFor, waitingFor, relocate_waiting_lookup]

@[simp] theorem relocate_setWaiting (l : Location) (ts : List Int) :
    (g.relocate ρ).setWaiting (ρ l) ts = (g.setWaiting l ts).relocate ρ := by
  have hothers : (g.relocate ρ).waiting.filter (fun w => w.1 != ρ l) =
      (g.waiting.filter fun w => w.1 != l).map fun w => (ρ w.1, w.2) := by
    rw [relocate, List.filter_map]
    congr 1
    exact List.filter_congr fun w _ => ρ.apply_bne
  simp only [setWaiting, hothers]
  split <;> simp [relocate]

/-- A task that found a lock held waits for the renamed one. -/
@[simp] theorem relocate_blockForLock (task : Int) (l : Location) :
    (g.relocate ρ).blockForLock task (ρ l) = (g.blockForLock task l).relocate ρ := by
  have hblock :
      (if (g.relocate ρ).isBlocked task then g.relocate ρ else (g.relocate ρ).block task) =
        (if g.isBlocked task then g else g.block task).relocate ρ := by
    rw [relocate_isBlocked, relocate_block]
    split <;> rfl
  simp only [blockForLock, hblock, relocate_waitingFor, relocate_setWaiting]
  exact (apply_ite (relocate ρ) _ _ _).symm

/-- The tasks that wait for a lock are set free. -/
@[simp] theorem relocate_unblockForLock (l : Location) :
    (g.relocate ρ).unblockForLock (ρ l) = (g.unblockForLock l).relocate ρ := by
  unfold unblockForLock
  rw [relocate_waitingFor]
  refine relocate_foldl ρ g _ _ _ fun g t => ?_
  rw [relocate_isBlocked, relocate_dropLabel]
  split <;> rfl

/-- One task stops waiting for the lock, and the others are blocked. -/
@[simp] theorem relocate_acquireLock (l : Location) (task : Int) :
    (g.relocate ρ).acquireLock (ρ l) task = (g.acquireLock l task).relocate ρ := by
  unfold acquireLock
  rw [relocate_waiting_lookup]
  split
  · rfl
  · rename_i ts _
    dsimp only
    rw [relocate_setWaiting]
    refine relocate_foldl ρ _ _ _ _ fun g t => ?_
    rw [relocate_isBlocked, relocate_block]
    split <;> rfl

@[simp] theorem relocate_isWaiting (l : Location) (task : Int) :
    (g.relocate ρ).isWaiting (ρ l) task = g.isWaiting l task := by
  rw [isWaiting, isWaiting, relocate_waitingFor]

/-! ### Copies -/

@[simp] theorem relocate_isLabel (k : Key) : (g.relocate ρ).isLabel k = g.isLabel k := by
  rw [isLabel, isLabel, relocate_kindOf?]

/-- A graph is nothing but its five views. -/
theorem eq_of_views {g h : Graph} (nodes : g.nodes = h.nodes) (tasks : g.tasks = h.tasks)
    (order : g.order = h.order) (chains : g.chains = h.chains) (waiting : g.waiting = h.waiting) :
    g = h := by
  cases g
  cases h
  simp_all

/-- Copies leave the same labels out. -/
@[simp] theorem relocate_cuts : (g.relocate ρ).cuts = g.cuts := by
  have hlabel : (g.relocate ρ).isLabel = g.isLabel := funext fun k => relocate_isLabel ρ g k
  unfold cuts beforeLabel
  rw [hlabel]
  rfl

/-- **A copy of a renamed graph is the renamed copy.** -/
@[simp] theorem relocate_copy : (g.relocate ρ).copy = g.copy.relocate ρ := by
  have hlabel : (g.relocate ρ).isLabel = g.isLabel := funext fun k => relocate_isLabel ρ g k
  have hcut : g.cuts.foldl cut (g.relocate ρ) = (g.cuts.foldl cut g).relocate ρ :=
    relocate_foldl ρ g _ _ _ fun g c => relocate_modifyNode ρ g c.1 _ fun _ => rfl
  refine eq_of_views ?_ ?_ rfl rfl rfl
  · rw [nodes_copy, relocate_cuts, hcut, hlabel, relocate_nodes, relocate_nodes, nodes_copy,
      List.filter_map, relocate_tasks]
    rfl
  · change ((g.relocate ρ).tasks.map fun ks => ks.filter fun k => !(g.relocate ρ).isLabel k) = _
    rw [hlabel]
    rfl

end Interleaving.Graph
