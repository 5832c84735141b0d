import Interleaving.Revisit.Backward

/-!
# Lock revisits

A lock acquisition may overtake an earlier one only if the two acquisitions stay unordered when the
earlier one sees what the later one saw.
-/

namespace Interleaving.LockRevisit

/-- Whether the acquisition of `revisiting` can overtake that of `revisited`; both are lock reads.
The graph itself is not changed. -/
def isPossible (g : Graph) (revisited revisiting : Key) : Except Revisit.Error Bool := do
  let copy := g.copy
  let event ← (copy.node revisited).mapError .revisitedLockRead
  let other ← (copy.node revisiting).mapError .revisitingLockRead
  match other.predecessors .readsFrom with
  | [source] =>
    let source ← (copy.node source).mapError .graph
    let changed ← (copy.changeReadsFrom event.key source.key).mapError .graph
    match Graph.recomputeClocks.run changed with
    | .ok _ g => return !g.happensBefore other.key event.key
    | .error (.cycle _ _) _ => return false
    | .error e _ => throw (.graph e)
  | sources =>
    throw (.graph (.corrupt (.lockReadSources other.key sources.length)))

end Interleaving.LockRevisit
