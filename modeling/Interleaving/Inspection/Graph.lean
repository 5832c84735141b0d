import Interleaving.Event.Observation
import Interleaving.Exploration.Engine
import Interleaving.Graph.Schedule
import Interleaving.Graph.Snapshot

/-!
# Looking into a graph

JSON documents that show events, nodes and graphs to someone who wants to look inside. They say more
than what is stored of a graph: clocks, stamps, the order of edges and the tasks that are not
blocked.
-/

namespace Interleaving

/-- An attribute value as it is. -/
def Attribute.view : Attribute → Json
  | .int n => n
  | .task n => n
  | .real bits => .number (Decimal.doubleText bits)
  | .bool b => b
  | .text s => s
  | .none => .null

/-- Attributes as texts. -/
def Attributes.view (a : Attributes) : Json :=
  .object (a.entries.map fun (name, v) => (name, .text v.render))

/-- Keys as texts. -/
def Key.viewAll (ks : List Key) : Json := .ofList (fun k => .text k.text) ks

/-- The members of a document about an event. -/
def Event.members (e : Event) : List (String × Json) :=
  [("task", e.key.task), ("seq", e.key.seq), ("kind", e.kind.name), ("loc", e.location),
    ("stamp", e.stamp), ("attrs", e.attributes.view)]

/-- A document about an event. -/
def Event.view (e : Event) : Json := .object e.members

/-- A document about the kind with a code: what can be asked of it, and the kinds that it pairs
with. A code without a kind has none of this. -/
def Kind.viewCode (code : UInt8) : Json :=
  let kind := Kind.ofCode? code
  let ask (f : Kind → Bool) : Json := .bool (kind.any f)
  .object [("text", Kind.nameOfCode code), ("read", ask isRead),
    ("exclusive_read", ask isExclusiveRead), ("write", ask isWrite),
    ("exclusive_write", ask isExclusiveWrite), ("paired_write", ask isPairedWrite),
    ("lock", ask isLock), ("noop", ask isMarker), ("blocking", ask isBlocking),
    ("pairs_with", .texts ((Kind.all.filter fun w => kind.any (·.pairsWith w)).map (·.name)))]

/-- A member of a document, if there is a value for it. -/
def Json.memberOf {α : Type} (name : String) (f : α → Json) (v : Option α) : List (String × Json) :=
  v.toList.map fun v => (name, f v)

/-- A document about an event that also answers what can be asked of its attributes. -/
def Event.viewInFull (e : Event) : Json :=
  .object (e.members ++ Json.memberOf "started_by" .ofInt e.startedBy? ++
    Json.memberOf "joined_task" .ofInt e.joinedTask? ++
    Json.memberOf "result" .bool (e.attributes.bool? Event.resultName) ++
    [("message", Json.text e.message), ("has_location", e.hasLocation),
      ("names", .texts e.attributes.names), ("has_value", e.attributes.has Event.valueName)])

/-- A document about an observation. -/
def Observation.view (o : Observation) : Json :=
  .object [("task", o.task), ("kind", o.kind.name),
    ("params", .object (o.parameters.entries.map fun (name, v) => (name, v.view)))]

/-- The edges of a node by relation; relations without edges are left out. -/
def Relation.viewEdges (keys : Relation → List Key) : Json :=
  .object ((Relation.all.filter fun r => !(keys r).isEmpty).map fun r =>
    (r.name, Key.viewAll (if r = .coherency then Key.sort (keys r) else keys r)))

/-- A document about a node. -/
def Node.view (n : Node) : Json :=
  .object [("key", n.key.text), ("kind", n.kind.name), ("loc", n.location),
    ("stamp", n.event.stamp), ("clock", n.clock.text), ("attrs", n.event.attributes.view),
    ("succ", Relation.viewEdges n.successors), ("pred", Relation.viewEdges n.predecessors)]

namespace Graph

/-- A short document about the node with a key. -/
def viewBriefly (g : Graph) (k : Key) : Json :=
  .ofOption
    (fun n : Node => .object [("key", n.key.text), ("clock", n.clock.text),
      ("stamp", n.event.stamp)])
    (g.find? k)

/-- The tasks that are not blocked. -/
def viewUnblocked (g : Graph) : Json := .ofList .ofInt g.unblockedTasks

/-- A document about a graph. A blocking label is marked by a letter after its key. -/
def view (g : Graph) : Json :=
  let locations := (g.events.map Node.location ++ [0, -1]).eraseDups
  let chains := locations.filterMap fun loc =>
    if (g.chain loc).isEmpty then none else some (Text.decimal loc, Key.viewAll (g.chain loc))
  let shown (k : Key) : Json := .text (k.text ++ if g.isLabel k then "B" else "")
  .object [("nodes", .ofList Node.view g.events), ("tasks", .ofList (.ofList shown) g.tasks),
    ("co", .object chains), ("unblocked", g.viewUnblocked)]

end Graph

/-- The entries of a schedule: what to do, and the location that it concerns. -/
def ScheduleEntry.viewAll (es : List ScheduleEntry) : Json :=
  .ofList
    (fun e : ScheduleEntry =>
      .array [e.directive.text, if e.hasLocation then .ofInt e.location else .null])
    es

/-- Directives as texts. -/
def Directive.viewAll (ds : List Directive) : Json := .texts (ds.map Directive.text)

/-- Counts by kind. -/
def Tally.view (t : Tally) : Json := .object (t.map fun (k, n) => (k.name, .ofInt n))

/-- A document about the numbers of an engine. -/
def Engine.Stats.view (s : Engine.Stats) : Json :=
  .object [("popped", s.popped.view), ("pushed", s.pushed.view),
    ("inconsistent", s.inconsistent), ("pending", s.pending)]

end Interleaving
