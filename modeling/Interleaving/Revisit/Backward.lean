import Interleaving.Graph.Alternatives
import Interleaving.Graph.Edit

/-!
# Backward revisits

A new write may become what an earlier read sees. The events after the read that do not happen
before the write must then be taken back, and the read starts another execution. The proposal works
on a copy of the graph, so that a rejected one changes nothing.

Another proposal may lead to the same execution. `Interleaving.BackwardRevisit.isMaximal` accepts
just one of them: every event that would be taken back sees, or is, the latest write among those
that stay or came before it.
-/

namespace Interleaving

/-- Why a revisit cannot be built or judged. -/
inductive Revisit.Error where
  | unknownRead (read : Key)
  | revisitedLockRead (cause : Graph.Error)
  | revisitingLockRead (cause : Graph.Error)
  | graph (cause : Graph.Error)
deriving DecidableEq

/-- The message of a failed revisit. -/
def Revisit.Error.message : Revisit.Error → String
  | .unknownRead read => "revisited read " ++ read.text ++ ": no such event"
  | .revisitedLockRead cause => "revisited lock read: " ++ cause.message
  | .revisitingLockRead cause => "revisiting lock read: " ++ cause.message
  | .graph cause => cause.message

/-- A new write proposed as what an earlier read sees. -/
structure BackwardRevisit where
  graph : Graph
  /-- The events that are taken back, each listed once. -/
  removed : List Key
  read : Key
  write : Key
  /-- An event to add again once the proposal is adopted. -/
  additional : Option Event
  /-- Whether the proposal has been applied to its graph. -/
  restricted : Bool

namespace BackwardRevisit

/-- The events that are taken back, apart from the read: those between the read and the last event
in total order that do not happen before the write. -/
def displaced (g : Graph) (write : Key) (index : Nat) : List Key :=
  (g.order.drop (index + 1)).dropLast.filter fun k => !g.happensBefore k write

/-- The proposal that `read` sees `write`, which is the last event in total order. A lock read is
taken back as well and added again later; an atomic update whose second half is taken back adds that
half again. -/
def new (g : Graph) (write read : Key) : Except Revisit.Error BackwardRevisit :=
  match g.indexOf? read with
  | none => .error (.unknownRead read)
  | some index =>
    let copy := g.copy
    let removed := displaced g write index
    match copy.node read, copy.node write with
    | .error e, _ => .error (.graph e)
    | _, .error e => .error (.graph e)
    | .ok r, .ok w =>
      let view : BackwardRevisit :=
        { graph := copy, removed, read := r.key, write := w.key, additional := none,
          restricted := false }
      match (g.find? read).map (·.event) with
      | none => .ok view
      | some event =>
        if event.kind = .lockAcquireRead then
          .ok { view with removed := removed ++ [read], additional := some event }
        else if event.kind = .readExclusive then
          let pair : Key := ⟨read.task, read.seq + 1⟩
          if removed.contains pair then
            match copy.node pair with
            | .error e => .error (.graph e)
            | .ok n =>
              .ok { view with
                additional := if n.kind = .writeExclusive then some n.event else none }
          else .ok view
        else .ok view

/-- The events that are taken back, in the order of their keys. -/
def removedKeys (v : BackwardRevisit) : List Key := Key.sort v.removed

/-- Marks the revisiting lock acquisition, in the graph of the proposal, as one that has overtaken
another one. -/
def markFinal (v : BackwardRevisit) : BackwardRevisit :=
  { v with graph := v.graph.markFinalLockWrite v.write }

/-- Whether an event is previous to the one at a place of the total order: it stands no later, or it
happens before the revisiting write. -/
def previous (v : BackwardRevisit) (index : Int) (k : Key) : Bool :=
  match v.graph.node? k with
  | none => false
  | some n =>
    let i : Int := ((v.graph.indexOf? k).map Int.ofNat).getD (-1)
    i ≤ index || v.graph.happensBefore n.key v.write

/-- What an event sees: a read its only source, any other event itself. -/
def sourceOf (v : BackwardRevisit) (n : Node) : Except Graph.Error Node :=
  if n.kind.isRead then
    match n.predecessors .readsFrom with
    | [source] => v.graph.node source
    | sources => .error (.corrupt (.readSources n.key sources.length))
  else .ok n

/-- The writes after one in a chain; all of them when it is not there. -/
def laterWrites (chain : List Key) (source : Key) : List Key :=
  match chain.findIdx? (· == source) with
  | some i => chain.drop (i + 1)
  | none => chain

/-- Whether one event is no reason against the proposal: no previous event reads from it, the write
it sees is previous, and no later write to the location is. -/
def isMaximalAt (v : BackwardRevisit) (k : Key) : Except Graph.Error Bool := do
  let n ← v.graph.node k
  if n.kind.isMarker then return true
  let index : Int := ((v.graph.indexOf? k).map Int.ofNat).getD (-1)
  if n.kind.isWrite && (n.successors .readsFrom).any (v.previous index) then return false
  let source ← v.sourceOf n
  if !v.previous index source.key then return false
  let loc := if source.key.isInit then n.location else source.location
  return !(laterWrites (v.graph.chain loc) source.key).any (v.previous index)

/-- Whether all events are no reason against the proposal. -/
def allMaximal (v : BackwardRevisit) : List Key → Except Graph.Error Bool
  | [] => .ok true
  | k :: ks => do if ← v.isMaximalAt k then allMaximal v ks else return false

/-- Whether no other proposal leads to the same execution. -/
def isMaximal (v : BackwardRevisit) : Except Graph.Error Bool :=
  v.allMaximal (v.removedKeys ++ if v.removed.contains v.read then [] else [v.read])

/-- Runs a change that may be refused as a whole. -/
def change (f : Graph → Except Graph.Error Graph) : Graph.Edit Unit := do
  match f (← get) with
  | .ok g => set g
  | .error e => throw e

/-- Applies a proposal: the write takes effect last, the read sees it, the events in between go, and
clocks are computed anew. -/
def apply (read write : Key) (removed : List Key) : Graph.Edit Unit := do
  modify fun g => g.trackCoherency write
  change fun g => g.changeReadsFrom read write
  change fun g => g.restrictBySet removed
  Graph.recomputeClocks

/-- Applies the proposal to its graph, which can be done once. -/
def restrict (v : BackwardRevisit) : BackwardRevisit × Except Graph.Error Graph :=
  if v.restricted then (v, .error (.corrupt (.alreadyRestricted v.write v.read)))
  else
    match (apply v.read v.write v.removed).run v.graph with
    | .ok _ g => ({ v with graph := g, restricted := true }, .ok g)
    | .error e g => ({ v with graph := g, restricted := true }, .error e)

end BackwardRevisit

end Interleaving
