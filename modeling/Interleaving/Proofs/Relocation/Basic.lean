import Interleaving.Graph.Consistency

/-!
# Renaming locations

Every run numbers its variables and locks anew. A **renaming** (`Interleaving.Renaming`) gives other
numbers to the locations of memory, different ones to different locations; what is no location of
memory, the mark of events that touch none and the mark of thread events among it, stays as it is.
So a renaming takes different locations to different ones altogether
(`Interleaving.Renaming.injective`).

Events, nodes and graphs are renamed by renaming the locations in them
(`Interleaving.Graph.relocate`). All questions about a graph that ask for no location have the same
answer after a renaming, and all changes of a graph can be made before or after it: there is one
lemma for each, named after the definition.
-/

namespace Interleaving

/-- Other numbers for the locations of memory. -/
structure Renaming where
  number : Location → Location
  positive : ∀ {l : Location}, 0 < l → 0 < number l
  number_injective : ∀ {l l' : Location}, 0 < l → 0 < l' → number l = number l' → l = l'

namespace Renaming

/-- The new number of a location. -/
def apply (ρ : Renaming) (l : Location) : Location := if 0 < l then ρ.number l else l

instance : CoeFun Renaming fun _ => Location → Location := ⟨apply⟩

/-- The renaming of a run that counts its locations from a higher base. -/
def shift (base : Nat) : Renaming where
  number l := l + base
  positive h := Int.add_pos_of_pos_of_nonneg h (Int.natCast_nonneg base)
  number_injective _ _ h := (Int.add_left_inj _).mp h

example : shift 100 3 = 103 ∧ shift 100 .thread = .thread := by decide

variable (ρ : Renaming) {l l' : Location}

@[simp] theorem apply_none : ρ .none = .none := (rfl)

@[simp] theorem apply_thread : ρ .thread = .thread := (rfl)

/-- Different locations stay different. -/
theorem injective (h : ρ l = ρ l') : l = l' := by
  unfold apply at h
  split at h <;> split at h
  · exact ρ.number_injective ‹_› ‹_› h
  · exact absurd (h ▸ ρ.positive ‹0 < l›) ‹_›
  · exact absurd (h ▸ ρ.positive ‹0 < l'›) ‹_›
  · exact h

/-- Different locations stay different. -/
@[simp] theorem apply_inj : ρ l = ρ l' ↔ l = l' := ⟨ρ.injective, congrArg ρ⟩

/-- What has no location gets none. -/
@[simp] theorem apply_eq_none : ρ l = .none ↔ l = .none :=
  (ρ.apply_inj : ρ l = ρ .none ↔ l = .none)

/-- Threads keep their location. -/
@[simp] theorem apply_eq_thread : ρ l = .thread ↔ l = .thread :=
  (ρ.apply_inj : ρ l = ρ .thread ↔ l = .thread)

/-- Tests for equality come out the same. -/
@[simp] theorem apply_beq : (ρ l == ρ l') = (l == l') := by
  rw [Bool.eq_iff_iff]
  simp

@[simp] theorem apply_bne : (ρ l != ρ l') = (l != l') := by
  rw [bne, bne, apply_beq]

theorem apply_bne_none : (ρ l != .none) = (l != .none) :=
  (ρ.apply_bne : (ρ l != ρ .none) = (l != .none))

/-- What is listed under a location is found under its new number. -/
theorem lookup {α β : Type} (φ : α → β) (l : Location) (entries : List (Location × α)) :
    (entries.map fun e => (ρ e.1, φ e.2)).lookup (ρ l) = (entries.lookup l).map φ := by
  induction entries with
  | nil => rfl
  | cons e rest ih =>
    rw [List.map_cons, List.lookup_cons, List.lookup_cons, apply_beq, ih]
    cases l == e.1 <;> rfl

/-- What has no repetitions has none under new numbers. -/
theorem eraseDups (ls : List Location) : (ls.map ρ).eraseDups = ls.eraseDups.map ρ := by
  match ls with
  | [] => rfl
  | l :: ls =>
    have hfilter : (ls.map ρ).filter (fun b => !(b == ρ l)) =
        (ls.filter fun b => !(b == l)).map ρ := by
      rw [List.filter_map]
      congr 1
      exact List.filter_congr fun b _ => by rw [Function.comp_apply, apply_beq]
    have hlt : (ls.filter fun b => !(b == l)).length < (l :: ls).length :=
      Nat.lt_succ_of_le (List.length_filter_le _ _)
    rw [List.map_cons, List.eraseDups_cons, List.eraseDups_cons, hfilter, eraseDups (ls.filter _),
      List.map_cons]
termination_by ls.length
decreasing_by exact hlt

/-- A list of renamed locations contains the same ones. -/
theorem contains (ls : List Location) (l : Location) :
    (ls.map ρ).contains (ρ l) = ls.contains l := by
  induction ls with
  | nil => rfl
  | cons l' ls ih => rw [List.map_cons, List.contains_cons, List.contains_cons, apply_beq, ih]

end Renaming

/-! ### Computations -/

section Computations

variable {ε σ α β : Type} {φ : α → α} {χ : β → β} {ψ : σ → σ}

/-- The result of a computation with its value and its state changed. -/
def mapResult (φ : α → α) (ψ : σ → σ) : EStateM.Result ε σ α → EStateM.Result ε σ α
  | .ok x s => .ok (φ x) (ψ s)
  | .error e s => .error e (ψ s)

/-- A computation on changed states does what another one does on the states as they are, and its
value changes alike. -/
def Respects (φ : α → α) (ψ : σ → σ) (x y : EStateM ε σ α) : Prop :=
  ∀ s, y.run (ψ s) = mapResult φ ψ (x.run s)

namespace Respects

/-- A result is renamed. -/
theorem pure (x : α) : Respects φ ψ (Pure.pure x : EStateM ε σ α) (Pure.pure (φ x)) := fun _ => rfl

/-- An error is the same. -/
theorem throw (e : ε) : Respects φ ψ (MonadExcept.throw e : EStateM ε σ α) (MonadExcept.throw e) :=
  fun _ => rfl

/-- The state is renamed. -/
theorem get : Respects ψ ψ (MonadState.get : EStateM ε σ σ) MonadState.get := fun _ => rfl

/-- A change of the state has to commute with renaming. -/
theorem of_modify {f f' : σ → σ} (h : ∀ s, f' (ψ s) = ψ (f s)) :
    Respects id ψ (modify f : EStateM ε σ PUnit) (modify f') := by
  intro s
  change EStateM.Result.ok PUnit.unit (f' (ψ s)) = EStateM.Result.ok PUnit.unit (ψ (f s))
  rw [h]

/-- Computations that respect renaming can be run one after the other. -/
theorem bind {x x' : EStateM ε σ α} {k k' : α → EStateM ε σ β} (hx : Respects φ ψ x x')
    (hk : ∀ y, Respects χ ψ (k y) (k' (φ y))) : Respects χ ψ (x >>= k) (x' >>= k') := by
  intro s
  have h := hx s
  change EStateM.bind x' k' (ψ s) = mapResult χ ψ (EStateM.bind x k s)
  change x' (ψ s) = mapResult φ ψ (x s) at h
  unfold EStateM.bind
  rw [h]
  cases x s with
  | ok y s' => exact hk y s'
  | error e s' => rfl

end Respects

end Computations

/-- An event with its location renamed. -/
def Event.relocate (ρ : Renaming) (e : Event) : Event := { e with location := ρ e.location }

/-- A node with its location renamed. -/
def Node.relocate (ρ : Renaming) (n : Node) : Node := { n with event := n.event.relocate ρ }

/-- A graph with all locations renamed. -/
def Graph.relocate (ρ : Renaming) (g : Graph) : Graph :=
  { g with
    nodes := g.nodes.map (·.relocate ρ)
    chains := g.chains.map fun c => (ρ c.1, c.2)
    waiting := g.waiting.map fun w => (ρ w.1, w.2) }

namespace Event

variable (ρ : Renaming) (e : Event)

@[simp] theorem relocate_key : (e.relocate ρ).key = e.key := (rfl)
@[simp] theorem relocate_kind : (e.relocate ρ).kind = e.kind := (rfl)
@[simp] theorem relocate_location : (e.relocate ρ).location = ρ e.location := (rfl)
@[simp] theorem relocate_task : (e.relocate ρ).task = e.task := (rfl)
@[simp] theorem relocate_holds : (e.relocate ρ).holds = e.holds := (rfl)
@[simp] theorem relocate_message : (e.relocate ρ).message = e.message := (rfl)
@[simp] theorem relocate_startedBy? : (e.relocate ρ).startedBy? = e.startedBy? := (rfl)
@[simp] theorem relocate_joinedTask? : (e.relocate ρ).joinedTask? = e.joinedTask? := (rfl)

/-- An event has a location just when the renamed one has. -/
@[simp] theorem relocate_hasLocation : (e.relocate ρ).hasLocation = e.hasLocation := by
  rw [hasLocation, hasLocation, relocate_location, bne, bne, Bool.eq_iff_iff]
  simp

end Event

namespace Node

variable (ρ : Renaming) (n : Node)

@[simp] theorem relocate_event : (n.relocate ρ).event = n.event.relocate ρ := (rfl)
@[simp] theorem relocate_key : (n.relocate ρ).key = n.key := (rfl)
@[simp] theorem relocate_kind : (n.relocate ρ).kind = n.kind := (rfl)
@[simp] theorem relocate_location : (n.relocate ρ).location = ρ n.location := (rfl)
@[simp] theorem relocate_clock : (n.relocate ρ).clock = n.clock := (rfl)
@[simp] theorem relocate_successors (r : Relation) :
    (n.relocate ρ).successors r = n.successors r := (rfl)
@[simp] theorem relocate_predecessors (r : Relation) :
    (n.relocate ρ).predecessors r = n.predecessors r := (rfl)
@[simp] theorem relocate_happensBefore (m : Node) :
    (m.relocate ρ).happensBefore (n.relocate ρ) = m.happensBefore n := (rfl)

end Node

namespace Graph

variable (ρ : Renaming) (g : Graph)

theorem relocate_nodes : (g.relocate ρ).nodes = g.nodes.map (·.relocate ρ) := rfl
@[simp] theorem relocate_tasks : (g.relocate ρ).tasks = g.tasks := (rfl)
@[simp] theorem relocate_order : (g.relocate ρ).order = g.order := (rfl)

/-! ### Looking up -/

/-- Nodes are found under their keys and renamed. -/
@[simp] theorem relocate_find? (k : Key) :
    (g.relocate ρ).find? k = (g.find? k).map (·.relocate ρ) := by
  rw [find?, find?, relocate, List.find?_map]
  rfl

/-- Events have the clocks that they had. -/
@[simp] theorem relocate_clockOf (k : Key) : (g.relocate ρ).clockOf k = g.clockOf k := by
  simp [clockOf, Function.comp_def]

/-- Events have the kinds that they had. -/
@[simp] theorem relocate_kindOf? (k : Key) : (g.relocate ρ).kindOf? k = g.kindOf? k := by
  simp [kindOf?, Function.comp_def]

/-- Clocks are not touched, so the same events happen before others. -/
@[simp] theorem relocate_happensBefore (a b : Key) :
    (g.relocate ρ).happensBefore a b = g.happensBefore a b := by
  unfold happensBefore
  rw [relocate_find?, relocate_find?]
  cases g.find? a <;> cases g.find? b <;> simp

@[simp] theorem relocate_taskKeys (task : Int) :
    (g.relocate ρ).taskKeys task = g.taskKeys task := (rfl)

/-- The same holds for the access by task and place. -/
@[simp] theorem relocate_node? (k : Key) :
    (g.relocate ρ).node? k = (g.node? k).map (·.relocate ρ) := by
  unfold node?
  have hbind : ∀ k? : Option Key,
      k?.bind (g.relocate ρ).find? = (k?.bind g.find?).map (·.relocate ρ) := by
    intro k?
    cases k? <;> simp
  split
  · exact hbind _
  · split
    · exact hbind _
    · rfl

/-- The access by task and place fails for the same keys. -/
@[simp] theorem relocate_node (k : Key) :
    (g.relocate ρ).node k = (g.node k).map (·.relocate ρ) := by
  unfold node
  rw [relocate_node?]
  cases g.node? k <;> rfl

/-- The same key of a chain has lost its event. -/
@[simp] theorem relocate_dangling? : (g.relocate ρ).dangling? = g.dangling? := by
  have hkeys : (g.relocate ρ).chains.flatMap (·.2) = g.chains.flatMap (·.2) := by
    rw [relocate, List.flatMap_map]
  rw [dangling?, dangling?, hkeys]
  congr 1
  funext k
  rw [relocate_node?]
  cases g.node? k <;> rfl

@[simp] theorem relocate_indexOf? (k : Key) : (g.relocate ρ).indexOf? k = g.indexOf? k := (rfl)

/-- The events of a graph, in total order, are renamed. -/
@[simp] theorem relocate_events : (g.relocate ρ).events = g.events.map (·.relocate ρ) := by
  rw [events, events, List.map_filterMap]
  congr 1
  exact funext fun k => relocate_find? ρ g k

/-- A chain is found at the renamed location; a renaming is injective, so at no other. -/
@[simp] theorem relocate_chain? (l : Location) : (g.relocate ρ).chain? (ρ l) = g.chain? l := by
  rw [chain?, chain?, relocate]
  exact (ρ.lookup id l g.chains).trans (by simp)

/-- A location without a chain has an empty one, before and after. -/
@[simp] theorem relocate_chain (l : Location) : (g.relocate ρ).chain (ρ l) = g.chain l := by
  rw [chain, chain, relocate_chain?]

@[simp] theorem relocate_lastOf (task : Int) : (g.relocate ρ).lastOf task = g.lastOf task := (rfl)

/-- Tasks end with events of the same kind. -/
@[simp] theorem relocate_lastKind? (task : Int) :
    (g.relocate ρ).lastKind? task = g.lastKind? task := by
  simp [lastKind?]

/-! ### Nodes and edges -/

/-- A change of a node that can be made before or after a renaming. -/
theorem relocate_modifyNode (k : Key) (f : Node → Node)
    (hf : ∀ n, f (n.relocate ρ) = (f n).relocate ρ) :
    (g.relocate ρ).modifyNode k f = (g.modifyNode k f).relocate ρ := by
  simp only [modifyNode, relocate, List.map_map]
  congr 1
  refine List.map_congr_left fun n _ => ?_
  change (if n.key = k then f (n.relocate ρ) else n.relocate ρ) =
    (if n.key = k then f n else n).relocate ρ
  by_cases hk : n.key = k
  · rw [if_pos hk, if_pos hk, hf]
  · rw [if_neg hk, if_neg hk]

/-- Edges are put between keys. -/
@[simp] theorem relocate_link (a b : Key) (r : Relation) :
    (g.relocate ρ).link a b r = (g.link a b r).relocate ρ := by
  simp only [link]
  rw [relocate_clockOf, relocate_modifyNode ρ g a, relocate_modifyNode ρ _ b]
  · split
    · exact relocate_modifyNode ρ _ b _ fun _ => rfl
    · rfl
  all_goals exact fun _ => rfl

/-- They are taken away in the same way. -/
@[simp] theorem relocate_unlink (a b : Key) (r : Relation) :
    (g.relocate ρ).unlink a b r = (g.unlink a b r).relocate ρ := by
  simp only [unlink]
  rw [relocate_modifyNode ρ g a, relocate_modifyNode ρ _ b]
  all_goals exact fun _ => rfl

/-- A chain is replaced at the renamed location. -/
@[simp] theorem relocate_setChain (l : Location) (ks : List Key) :
    (g.relocate ρ).setChain (ρ l) ks = (g.setChain l ks).relocate ρ := by
  unfold setChain
  rw [relocate_chain?]
  split
  · simp only [relocate, List.map_map]
    congr 1
    refine List.map_congr_left fun c _ => ?_
    simp only [Function.comp_apply, Renaming.apply_inj]
    split <;> rfl
  · simp [relocate]

end Graph

end Interleaving
