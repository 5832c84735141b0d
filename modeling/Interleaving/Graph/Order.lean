import Interleaving.Graph.Basic

/-!
# Topological order

The events of a graph in an order that keeps every edge forward, found by removing sources: the
first event goes first, and an event follows as soon as all edges into it come from events already
placed. Events that become free together are placed in the order of their keys, so the result does
not depend on how the graph was built. Blocking labels take part and are left out of the result.

`Interleaving.Graph.visit` gives the nodes in the order in which they are reached, together with the
reason why the walk ended early, if it did.
-/

namespace Interleaving.Graph

/-- The nodes that the walk can reach: those of the total order, and the label at the end of each
blocked task. -/
def reachable? (g : Graph) (k : Key) : Option Node :=
  if g.order.contains k || (g.isLabel k && g.lastOf k.task == k) then g.find? k else none

/-- For every event, the number of edges into it that are still to come. -/
abbrev Pending := List (Key × Int)

/-- The number of edges into each event. -/
def pending (g : Graph) : Pending := g.events.map fun n => (n.key, (n.pred.length : Int))

/-- Takes one edge into a key away. A key without a number counts as having one. -/
def Pending.decrease (p : Pending) (k : Key) : Int × Pending :=
  match p.lookup k with
  | some d => (d - 1, p.map fun e => if e.1 = k then (k, d - 1) else e)
  | none => (0, p ++ [(k, 0)])

/-- Takes the edges out of a node away, and collects the keys that no edge is left into. -/
def release (p : Pending) : List Key → Pending × List Key
  | [] => (p, [])
  | k :: ks =>
    let (d, p) := p.decrease k
    let (p, free) := release p ks
    (p, if d = 0 then k :: free else free)

/-- The keys at the ends of all edges out of a node, relation by relation. -/
def targets (n : Node) : List Key := Relation.all.flatMap n.successors

/-- Resolves the keys that have become free after a node. -/
def resolveAll (g : Graph) (source : Key) : List Key → Except Error (List Node)
  | [] => .ok []
  | k :: ks =>
    match g.reachable? k with
    | none => .error (.corrupt (.strayKey k source))
    | some n => (resolveAll g source ks).map (n :: ·)

/-- Walks the queue. Each step takes one node; no key becomes free twice, so there are at most as
many steps as nodes, and one more for edges into the first event. -/
def walk (g : Graph) : Nat → Pending → List Node → List Node × Option Error
  | 0, _, _ => ([], none)
  | _ + 1, _, [] => ([], none)
  | fuel + 1, p, n :: queue =>
    let (p, free) := release p (targets n)
    match g.resolveAll n.key (Key.sort free) with
    | .error e => ([n], some e)
    | .ok next =>
      let (rest, e) := walk g fuel p (queue ++ next)
      (n :: rest, e)

/-- Whether a node counts as an event. -/
def isEvent (n : Node) : Bool := !n.kind.isBlocking

/-- The nodes in the order in which the walk reaches them, labels included, and why it ended early:
a key that names no node, or a cycle that hides some event. -/
def visit (g : Graph) : List Node × Option Error :=
  match g.order.head?.bind g.find? with
  | none => ([], none)
  | some first =>
    let (visited, e) := g.walk (g.nodes.length + 2) g.pending [first]
    let reached := (visited.filter isEvent).length
    match e with
    | some e => (visited, some e)
    | none => (visited, if reached = g.size then none else some (.cycle reached g.size))

/-- The events of the graph in topological order. -/
def topologicalOrder (g : Graph) : Except Error (List Node) :=
  match g.visit with
  | (_, some e) => .error e
  | (visited, none) => .ok (visited.filter isEvent)

end Interleaving.Graph
