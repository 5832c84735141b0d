import Interleaving.Proofs.Relocation.Changes
import Interleaving.Revisit.Lock

/-!
# Revisits after a renaming

A backward revisit of a renamed graph is the renamed revisit: it takes back the same events, is
accepted or not, and leads to the renamed graph. The same holds of the question whether a lock
acquisition can overtake another one.
-/

namespace Interleaving

namespace BackwardRevisit

variable (ρ : Renaming)

/-- A revisit with all locations renamed. -/
def relocate (v : BackwardRevisit) : BackwardRevisit :=
  { v with graph := v.graph.relocate ρ, additional := v.additional.map (·.relocate ρ) }

variable (g : Graph) (v : BackwardRevisit)

@[simp] theorem relocate_graph : (v.relocate ρ).graph = v.graph.relocate ρ := (rfl)
@[simp] theorem relocate_read : (v.relocate ρ).read = v.read := (rfl)
@[simp] theorem relocate_write : (v.relocate ρ).write = v.write := (rfl)
@[simp] theorem relocate_removed : (v.relocate ρ).removed = v.removed := (rfl)

/-- A proposal displaces the same events. -/
@[simp] theorem relocate_displaced (write : Key) (index : Nat) :
    displaced (g.relocate ρ) write index = displaced g write index := by
  simp only [displaced, Graph.relocate_order, Graph.relocate_happensBefore]

/-- **A proposal is made in the same way**: it is the renamed one, or it fails for the same
reason. -/
theorem relocate_new (write read : Key) :
    BackwardRevisit.new (g.relocate ρ) write read =
      (BackwardRevisit.new g write read).map (relocate ρ) := by
  simp only [BackwardRevisit.new, Graph.relocate_indexOf?, Graph.relocate_copy, Graph.relocate_node,
    Graph.relocate_find?, relocate_displaced]
  cases g.indexOf? read with
  | none => rfl
  | some index =>
    dsimp only
    cases g.copy.node read with
    | error e => rfl
    | ok r =>
      cases g.copy.node write with
      | error e => rfl
      | ok w =>
        dsimp only [Except.map]
        cases g.find? read with
        | none => rfl
        | some n =>
          simp only [Option.map_some, Node.relocate_event, Event.relocate_kind, Node.relocate_key]
          split
          · rfl
          · split
            · split
              · cases g.copy.node ⟨read.task, read.seq + 1⟩ with
                | error e => rfl
                | ok n =>
                  have hhalf :
                      (if n.kind = .writeExclusive then some (n.event.relocate ρ) else none) =
                      (if n.kind = .writeExclusive then some n.event else none).map
                      (·.relocate ρ) :=
                    (apply_ite (Option.map (Event.relocate ρ)) _ (some n.event) none).symm
                  simp only [Node.relocate_kind, Node.relocate_event, hhalf]
                  rfl
              · rfl
            · rfl

/-- The overtaking acquisition is marked in the renamed graph. -/
theorem relocate_markFinal : (v.relocate ρ).markFinal = v.markFinal.relocate ρ := by
  simp only [markFinal, relocate_graph, relocate_write, Graph.relocate_markFinalLockWrite]
  rfl

/-- Whether an event comes before the proposal is a matter of keys and clocks. -/
@[simp] theorem relocate_previous (index : Int) (k : Key) :
    (v.relocate ρ).previous index k = v.previous index k := by
  unfold previous
  rw [relocate_graph, Graph.relocate_node?]
  cases v.graph.node? k with
  | none => rfl
  | some n =>
    simp only [Option.map_some, Graph.relocate_indexOf?, Node.relocate_key, relocate_write,
      Graph.relocate_happensBefore]

/-- What an event sees is renamed. -/
theorem relocate_sourceOf (n : Node) :
    (v.relocate ρ).sourceOf (n.relocate ρ) = (v.sourceOf n).map (·.relocate ρ) := by
  unfold sourceOf
  rw [Node.relocate_kind, Node.relocate_predecessors, relocate_graph]
  split
  · split
    · exact Graph.relocate_node ρ v.graph _
    · rfl
  · rfl

/-- The same events are no reason against a proposal. -/
@[simp] theorem relocate_isMaximalAt (k : Key) :
    (v.relocate ρ).isMaximalAt k = v.isMaximalAt k := by
  have hprevious : ∀ index, (v.relocate ρ).previous index = v.previous index := fun index =>
    funext fun k => relocate_previous ρ v index k
  unfold isMaximalAt
  rw [relocate_graph, Graph.relocate_node]
  cases v.graph.node k with
  | error e => rfl
  | ok n =>
    simp only [Except.map, bind, Except.bind, Node.relocate_kind, Node.relocate_successors,
      Graph.relocate_indexOf?, hprevious, relocate_sourceOf]
    split
    · rfl
    · split
      · rfl
      · cases v.sourceOf n with
        | error e => rfl
        | ok source =>
          have hseen : (if source.key.isInit then ρ n.location else ρ source.location) =
              ρ (if source.key.isInit then n.location else source.location) :=
                (apply_ite ρ _ _ _).symm
          simp only [Node.relocate_key, Node.relocate_location, hseen, Graph.relocate_chain]

/-- **The same proposals are accepted.** -/
@[simp] theorem relocate_isMaximal : (v.relocate ρ).isMaximal = v.isMaximal := by
  have hall : ∀ ks, (v.relocate ρ).allMaximal ks = v.allMaximal ks := by
    intro ks
    induction ks with
    | nil => rfl
    | cons k ks ih => rw [allMaximal, allMaximal, relocate_isMaximalAt, ih]
  exact hall _

/-- A change of the graph that commutes with renaming commutes with it as a step. -/
theorem change_respects {f f' : Graph → Except Graph.Error Graph}
    (h : ∀ g, f' (g.relocate ρ) = (f g).map (Graph.relocate ρ)) :
    Graph.EditRespects ρ id (change f) (change f') := by
  refine Respects.get.bind fun g => ?_
  rw [h]
  cases f g with
  | ok g' => exact fun _ => rfl
  | error e => exact Respects.throw _

/-- Carrying a proposal out commutes with renaming. -/
theorem apply_respects (read write : Key) (removed : List Key) :
    Graph.EditRespects ρ id (apply read write removed) (apply read write removed) := by
  refine (Respects.of_modify fun g => Graph.relocate_trackCoherency ρ g write).bind fun _ => ?_
  refine (change_respects ρ fun g => Graph.relocate_changeReadsFrom ρ g read write).bind fun _ => ?_
  refine (change_respects ρ fun g => Graph.relocate_restrictBySet ρ g removed).bind fun _ => ?_
  exact Graph.recomputeClocks_respects ρ

/-- **An accepted proposal leads to the renamed graph.** -/
theorem relocate_restrict : (v.relocate ρ).restrict.2 = v.restrict.2.map (Graph.relocate ρ) := by
  have happly := apply_respects ρ v.read v.write v.removed v.graph
  unfold restrict
  have hrestricted : (v.relocate ρ).restricted = v.restricted := rfl
  rw [hrestricted, relocate_read, relocate_write, relocate_removed, relocate_graph, happly]
  split
  · rfl
  · cases (apply v.read v.write v.removed).run v.graph <;> rfl

end BackwardRevisit

/-- A lock can be taken in another order in one graph just when it can in the other. -/
theorem LockRevisit.isPossible_relocate (ρ : Renaming) (g : Graph) (revisited revisiting : Key) :
    LockRevisit.isPossible (g.relocate ρ) revisited revisiting =
      LockRevisit.isPossible g revisited revisiting := by
  simp only [LockRevisit.isPossible, Graph.relocate_copy, Graph.relocate_node]
  cases g.copy.node revisited with
  | error e => rfl
  | ok event =>
    cases g.copy.node revisiting with
    | error e => rfl
    | ok other =>
      simp only [Except.map, Except.mapError, bind, Except.bind, Node.relocate_predecessors,
        Node.relocate_key]
      split
      · rename_i source _
        cases g.copy.node source with
        | error e => rfl
        | ok seen =>
          simp only [Node.relocate_key, Graph.relocate_changeReadsFrom]
          cases g.copy.changeReadsFrom event.key seen.key with
          | error e => rfl
          | ok changed =>
            have hclocks := Graph.recomputeClocks_respects ρ changed
            simp only [Except.map, hclocks]
            cases Graph.recomputeClocks.run changed with
            | ok x g' => simp [mapResult]
            | error e g' => cases e <;> rfl
      · rfl

end Interleaving
