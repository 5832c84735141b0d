import Interleaving.Clock
import Interleaving.Event.Basic
import Interleaving.Graph.Relation

/-!
# Nodes of an execution graph

A node is an event with its vector clock and its edges. Edges are pairs of a relation and a key, in
the order in which they were added, and they are kept at both ends: a successor at one node is a
predecessor at the other.
-/

namespace Interleaving

/-- The edges at one side of a node: a relation and the key of the other end. -/
abbrev Edges := List (Relation × Key)

namespace Edges

/-- The keys at the other ends of the edges of a relation, oldest first. -/
def keys (es : Edges) (r : Relation) : List Key :=
  es.filterMap fun e => if e.1 = r then some e.2 else none

/-- The edges with one more, unless it is there already. -/
def insert (es : Edges) (r : Relation) (k : Key) : Edges :=
  if es.contains (r, k) then es else es ++ [(r, k)]

/-- The edges without one. -/
def erase (es : Edges) (r : Relation) (k : Key) : Edges := es.filter fun e => e != (r, k)

/-- The edges whose other end is not among the keys. -/
def without (es : Edges) (ks : List Key) : Edges := es.filter fun e => !ks.contains e.2

end Edges

/-- An event of an execution graph with its clock and its edges. -/
structure Node where
  event : Event
  clock : Clock
  attributes : Attributes
  succ : Edges
  pred : Edges
deriving DecidableEq

namespace Node

/-- A node without edges. -/
def new (event : Event) (clock : Clock) : Node :=
  { event, clock, attributes := .empty, succ := [], pred := [] }

/-- The key of the event. -/
def key (n : Node) : Key := n.event.key

/-- The kind of the event. -/
def kind (n : Node) : Kind := n.event.kind

/-- The location of the event. -/
def location (n : Node) : Location := n.event.location

/-- The keys of the successors under a relation. -/
def successors (n : Node) (r : Relation) : List Key := n.succ.keys r

/-- The keys of the predecessors under a relation. -/
def predecessors (n : Node) (r : Relation) : List Key := n.pred.keys r

/-- Whether there is an edge to a key under a relation. -/
def hasEdge (n : Node) (r : Relation) (k : Key) : Bool := n.succ.contains (r, k)

/-- Whether the event happens before another one, by their clocks. -/
def happensBefore (m n : Node) : Bool := m.clock.before n.clock

/-- The node with an attribute of its own. -/
def setAttribute (n : Node) (name : String) (v : Attribute) : Node :=
  { n with attributes := n.attributes.set name v }

/-- The node without edges from or to the keys. -/
def dropKeys (n : Node) (ks : List Key) : Node :=
  { n with succ := n.succ.without ks, pred := n.pred.without ks }

/-- Whether two nodes have the same successors under every relation. -/
def sameEdges (m n : Node) : Bool :=
  Relation.all.all fun r => Key.sort (m.successors r) == Key.sort (n.successors r)

end Node

end Interleaving
