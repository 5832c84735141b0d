import Interleaving.Detail
import Interleaving.Digest
import Interleaving.Graph.Basic
import Interleaving.Json.Decode
import Interleaving.Json.Parser
import Interleaving.Json.Printer

/-!
# Snapshots

The form in which an execution graph is stored: its nodes by the text of their keys, each with its
event, its attributes as texts and its successors by relation, in the order of their keys. Two
graphs with the same nodes and edges have the same snapshot, however they were built.

Without locations the text does not depend on how a run numbered its memory; its hash is what tells
executions apart (`Interleaving.Graph.hash`).
-/

namespace Interleaving

/-- The key of an event; both parts are missing for the first event. -/
structure KeySnapshot where
  task : Option Int
  timestamp : Option Int
deriving DecidableEq

/-- An event with its attributes as texts. -/
structure EventSnapshot where
  key : KeySnapshot
  location : Option Int
  type : String
  attributes : Option (Dictionary String)
deriving DecidableEq

/-- A node with its successors by the name of the relation. -/
structure NodeSnapshot where
  event : EventSnapshot
  attributes : Option (Dictionary String)
  edges : Option (Dictionary (Option (List String)))
deriving DecidableEq

/-- A stored graph: its nodes by the text of their keys. A dictionary that is `none` was not stored
at all. -/
structure Snapshot where
  nodes : Option (Dictionary NodeSnapshot)
deriving DecidableEq

namespace NodeSnapshot

/-- A node with nothing in it. -/
def empty : NodeSnapshot :=
  { event := { key := ⟨none, none⟩, location := none, type := "", attributes := none }
    attributes := none, edges := none }

/-- The stored form of a node, with or without its location. -/
def ofNode (ignoreLocation : Bool) (n : Node) : NodeSnapshot :=
  let e := n.event
  { event :=
      { key := if e.key.isInit then ⟨none, none⟩ else ⟨some e.key.task, some e.key.seq⟩
        location := if ignoreLocation || !e.hasLocation then none else some e.location
        type := e.kind.name
        attributes := some (e.attributes.map Attribute.render) }
    attributes := some (n.attributes.map Attribute.render)
    edges := some (Dictionary.ofList
      ((Relation.byName.filter fun r => !(n.successors r).isEmpty).map fun r =>
        (r.name, some ((Key.sort (n.successors r)).map Key.text)))) }

end NodeSnapshot

namespace Snapshot

/-- The stored form of a graph, with or without locations. -/
def ofGraph (ignoreLocation : Bool) (g : Graph) : Snapshot :=
  ⟨some (Dictionary.ofList
    (g.events.map fun n => (n.key.text, NodeSnapshot.ofNode ignoreLocation n)))⟩

/-! ### Writing -/

/-- An optional value, `null` when it is missing. -/
def orNull {α : Type} (f : α → Json) : Option α → Json
  | some a => f a
  | none => .null

/-- A dictionary as an object. -/
def dictionaryJson {α : Type} (f : α → Json) (d : Dictionary α) : Json :=
  .object (d.entries.map fun (name, v) => (name, f v))

/-- A list of texts as an array. -/
def textsJson (ss : List String) : Json := .array (ss.map .text)

/-- An event as JSON; a missing location is left out. -/
def eventJson (e : EventSnapshot) : Json :=
  .object (
    [("key", .object
      [("taskId", orNull .ofInt e.key.task), ("timestamp", orNull .ofInt e.key.timestamp)])] ++
    (match e.location with
      | some loc => [("location", .ofInt loc)]
      | none => []) ++
    [("type", .text e.type), ("attributes", orNull (dictionaryJson .text) e.attributes)])

/-- A node as JSON. -/
def nodeJson (n : NodeSnapshot) : Json :=
  .object
    [("event", eventJson n.event),
     ("attributes", orNull (dictionaryJson .text) n.attributes),
     ("edges", orNull (dictionaryJson (orNull textsJson)) n.edges)]

/-- A snapshot as JSON. -/
def toJson (s : Snapshot) : Json :=
  .object [("nodes", orNull (dictionaryJson nodeJson) s.nodes)]

/-! ### Reading -/

/-- Reads a member of a key. -/
def readKeyField? (name : String) (v : Json) (old : KeySnapshot) : Option KeySnapshot :=
  if name = "taskid" then (Json.readOptionalInt? v).map fun n => { old with task := n }
  else if name = "timestamp" then (Json.readOptionalInt? v).map fun n => { old with timestamp := n }
  else some old

/-- Reads a text of a dictionary. -/
def readEntry? (v : Json) : Option String := Json.readString? v ""

/-- Reads a member of an event. -/
def readEventField? (name : String) (v : Json) (old : EventSnapshot) : Option EventSnapshot :=
  if name = "key" then
    (Json.readRecord? readKeyField? v old.key).map fun k => { old with key := k }
  else if name = "location" then
    (Json.readOptionalInt? v).map fun n => { old with location := n }
  else if name = "type" then (Json.readString? v old.type).map fun s => { old with type := s }
  else if name = "attributes" then
    (Json.readDictionary? readEntry? v old.attributes).map fun d => { old with attributes := d }
  else some old

/-- Reads a member of a node. -/
def readNodeField? (name : String) (v : Json) (old : NodeSnapshot) : Option NodeSnapshot :=
  if name = "event" then
    (Json.readRecord? readEventField? v old.event).map fun e => { old with event := e }
  else if name = "attributes" then
    (Json.readDictionary? readEntry? v old.attributes).map fun d => { old with attributes := d }
  else if name = "edges" then
    (Json.readDictionary? (Json.readList? readEntry?) v old.edges).map fun d =>
      { old with edges := d }
  else some old

/-- Reads a member of a snapshot. -/
def readField? (name : String) (v : Json) (old : Snapshot) : Option Snapshot :=
  if name = "nodes" then
    (Json.readDictionary? (fun v => Json.readRecord? readNodeField? v .empty) v old.nodes).map
      fun d => { old with nodes := d }
  else some old

/-- Why a text is no snapshot. -/
inductive DecodeError where
  | malformed
  | badKey (source : String) (cause : Key.ParseError)
  | badRelation (node name : String)
  | badSuccessor (node source : String) (cause : Key.ParseError)
deriving DecidableEq

/-- The message about a text that is no snapshot. -/
def DecodeError.message (say : Wording) : DecodeError → String
  | .malformed => "failed to decode execution graph: " ++ say (.document "not a stored graph")
  | .badKey source cause => cause.message source
  | .badRelation node name => "node " ++ node ++ ": " ++ Relation.unknownName name
  | .badSuccessor node source cause => "node " ++ node ++ ": " ++ cause.message source

/-- Checks the keys of the successors of a node. -/
def checkSuccessors (node : String) : List String → Except DecodeError Unit
  | [] => .ok ()
  | k :: ks =>
    match Key.parse? k with
    | .error cause => .error (.badSuccessor node k cause)
    | .ok _ => checkSuccessors node ks

/-- Checks the relations of a node. -/
def checkEdges (node : String) : List (String × Option (List String)) → Except DecodeError Unit
  | [] => .ok ()
  | (name, ks) :: more =>
    match Relation.ofName? name with
    | none => .error (.badRelation node name)
    | some _ => do
      checkSuccessors node (ks.getD [])
      checkEdges node more

/-- Checks the keys and the relations of nodes. -/
def checkNodes : List (String × NodeSnapshot) → Except DecodeError Unit
  | [] => .ok ()
  | (key, n) :: more =>
    match Key.parse? key with
    | .error cause => .error (.badKey key cause)
    | .ok _ => do
      checkEdges key ((n.edges.map (·.entries)).getD [])
      checkNodes more

/-- Reads a stored graph and checks its keys and relations. -/
def decode (s : String) : Except DecodeError Snapshot :=
  match (Json.parse? s).bind fun v => Json.readRecord? readField? v ⟨none⟩ with
  | none => .error .malformed
  | some snapshot => do
    checkNodes ((snapshot.nodes.map (·.entries)).getD [])
    return snapshot

end Snapshot

namespace Graph

/-- The text of a graph, with or without locations. -/
def json (ignoreLocation : Bool) (g : Graph) : String :=
  (Snapshot.ofGraph ignoreLocation g).toJson.compact

/-- The text of a graph in a file of its own, one member a line. -/
def fileText (g : Graph) : String := (Snapshot.ofGraph false g).toJson.indented

/-- What tells executions apart: the hash of the text without locations. -/
def hash (g : Graph) : String := Digest.hexDigest (g.json true)

end Graph

end Interleaving
