import Interleaving.Graph.Order

/-!
# Changing the past

The changes that turn a recorded execution into another candidate: a read sees another write, a
write moves in its coherency chain, events are taken out, and clocks are computed anew.
-/

namespace Interleaving.Graph

/-- Lets a read see a write. -/
def setReadsFrom (g : Graph) (read write : Key) : Graph := g.link write read .readsFrom

/-- Lets a read that sees one write see another one. Clocks are stale afterwards. -/
def changeReadsFrom (g : Graph) (read write : Key) : Except Error Graph :=
  match ((g.find? read).map (·.predecessors .readsFrom)).getD [] with
  | [source] => do
    let prev ← g.node source
    return (g.unlink prev.key read .readsFrom).link write read .readsFrom
  | sources => .error (.corrupt (.readSources read sources.length))

/-- Puts a write at the end of the coherency chain of its location, unless it is there already. -/
def trackCoherency (g : Graph) (write : Key) : Graph :=
  let loc := ((g.find? write).map (·.location)).getD .none
  let chain := g.chain loc
  let chain := if chain.isEmpty then [.init] else chain
  let last := chain.getLast?.getD .init
  if last = write then g.setChain loc chain
  else (g.setChain loc (chain ++ [write])).link last write .coherency

/-- Removes the coherency edges between neighbours of a chain. -/
def unlinkChain (g : Graph) : List Key → Graph
  | a :: b :: more => unlinkChain (g.unlink a b .coherency) (b :: more)
  | _ => g

/-- Adds the coherency edges between neighbours of a chain. -/
def linkChain (g : Graph) : List Key → Graph
  | a :: b :: more => linkChain (g.link a b .coherency) (b :: more)
  | _ => g

/-- Moves the later of two writes of a chain to just before the earlier one. -/
def swapCoherency (g : Graph) (a b : Key) : Except Error Graph :=
  let loc := ((g.find? a).map (·.location)).getD .none
  if ((g.find? b).map (·.location)).getD .none ≠ loc then .error (.corrupt (.swapAcross a b))
  else
    let old := g.chain loc
    match old.findIdx? (· == a), old.findIdx? (· == b) with
    | some i, some j =>
      let earlier := min i j
      let later := max i j
      let moved := old[later]?.getD .init
      let chain := (old.eraseIdx later).insertIdx earlier moved
      .ok (((g.unlinkChain old).linkChain chain).setChain loc chain)
    | _, _ => .error (.corrupt (.swapOutside a b))

/-! ### Taking events out -/

/-- A task without the removed events, and the label at its end if what it stood after is gone. -/
def keptTask (g : Graph) (removed : List Key) (ks : List Key) : List Key × Option Key :=
  let kept := ks.filter fun k => !removed.contains k
  match kept.getLast? with
  | some last =>
    if g.isLabel last && last.seq != (kept.length : Int) - 1 then (kept.dropLast, some last)
    else (kept, none)
  | none => (kept, none)

/-- The locations of the removed writes. -/
def touchedLocations (g : Graph) (removed : List Key) : List Location :=
  ((g.events.filter fun n => removed.contains n.key && n.kind.isWrite).map (·.location)).eraseDups

/-- The locations of the removed events. -/
def prunedLocations (g : Graph) (removed : List Key) : List Location :=
  ((g.events.filter fun n => removed.contains n.key && n.event.hasLocation).map
    (·.location)).eraseDups

/-- Takes events at tracked locations out of every view and drops all edges from and to them. A
chain that loses a write is linked anew. -/
def prune (g : Graph) (removed : List Key) : Graph :=
  if removed.isEmpty then g
  else
    let touched := g.touchedLocations removed
    let pruned := g.prunedLocations removed
    let tasks := g.tasks.map (g.keptTask removed)
    let gone := removed ++ tasks.filterMap (·.2)
    let stays (k : Key) : Bool := !removed.contains k
    let g' : Graph :=
      { nodes := (g.nodes.filter fun n => !gone.contains n.key).map fun n => n.dropKeys gone
        tasks := tasks.map (·.1)
        order := g.order.filter stays
        chains := g.chains.map fun c =>
          if pruned.contains c.1 then (c.1, c.2.filter stays) else c
        waiting := g.waiting }
    touched.foldl
      (fun g' loc =>
        let chain := g'.chain loc
        if chain.length ≤ 1 then g' else (g'.unlinkChain (g.chain loc)).linkChain chain)
      g'

/-- The first of the removed events whose location has no chain. -/
def untracked? (g : Graph) (removed : List Key) : Option Key :=
  (g.events.find? fun n =>
    removed.contains n.key && n.event.hasLocation && (g.chain? n.location).isNone).map (·.key)

/-- Takes events out, all of which have to be at locations that have a chain. -/
def takeOut (g : Graph) (removed : List Key) : Except Error Graph :=
  match g.untracked? removed with
  | some k => .error (.corrupt (.untrackedLocation k))
  | none => .ok (g.prune removed)

/-- Takes out every event after one in the total order. -/
def restrict (g : Graph) (k : Key) : Except Error Graph :=
  match g.indexOf? k with
  | none => .error (.noSuchEvent k)
  | some i => g.takeOut (g.order.drop (i + 1))

/-- Takes out exactly the given events. -/
def restrictBySet (g : Graph) (removed : List Key) : Except Error Graph :=
  match removed.find? fun k => k.isInit || (g.indexOf? k).isNone with
  | some k => .error (.noSuchEvent k)
  | none => g.takeOut removed

/-! ### Clocks -/

/-- The clocks computed so far. -/
abbrev Clocks := List (Key × Clock)

/-- Merges the clocks of the predecessors that order time into a clock. -/
def mergePredecessors (clocks : Clocks) : Clock → Edges → Except Error Clock
  | clock, [] => .ok clock
  | clock, (r, k) :: more =>
    if r.ordersTime then
      match clocks.lookup k with
      | none => .error (.corrupt (.missingPredecessorClock k))
      | some c => mergePredecessors clocks (clock.merge c) more
    else mergePredecessors clocks clock more

/-- The clock of a node from the clocks of its predecessors; a label has none. -/
def clockFrom (clocks : Clocks) (n : Node) : Except Error (Option Clock) :=
  if n.key.isInit then .ok (some .empty)
  else if n.kind.isBlocking then .ok none
  else
    match n.predecessors .programOrder with
    | [] => .error (.corrupt (.noPredecessor n.key))
    | po :: _ =>
      match clocks.lookup po with
      | none => .error (.corrupt (.missingClock po))
      | some c => (mergePredecessors clocks (c.successor n.key.task.toNat) n.pred).map some

/-- Computes the clocks of nodes in the order given; what was computed before a failure stays. -/
def recomputeFrom : Clocks → List Node → Edit Unit
  | _, [] => return
  | clocks, n :: more => do
    match clockFrom clocks n with
    | .error e => throw e
    | .ok none => recomputeFrom clocks more
    | .ok (some c) =>
      modify fun g => g.modifyNode n.key fun n => { n with clock := c }
      recomputeFrom (clocks ++ [(n.key, c)]) more

/-- Computes all clocks anew from program order and the edges that order time. -/
def recomputeClocks : Edit Unit := do
  let (visited, failure) := (← get).visit
  recomputeFrom [] visited
  match failure with
  | some e => throw e
  | none => return

end Interleaving.Graph
