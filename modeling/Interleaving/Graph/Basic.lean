import Interleaving.Graph.Error
import Interleaving.Graph.Node

/-!
# Execution graphs

An execution graph records one interleaving of a program: its events, and between them program
order, reads-from, coherency and the edges of the life of threads. The nodes stand in a table by
key, and three views list their keys:

* `tasks` – the **program order** of every task, with a blocking label at the end of a task that
  must not go on;
* `order` – the **total order** in which the events were added, the first event in front, labels
  left out;
* `chains` – for every location its **coherency chain**, the writes in the order in which they took
  effect, the first event in front.

For every lock the graph also lists the tasks that wait for it. Operations that can be refused run
in `Interleaving.Graph.Edit`, which keeps what was done before the refusal.
-/

namespace Interleaving

/-- One candidate execution of a program. -/
structure Graph where
  nodes : List Node
  tasks : List (List Key)
  order : List Key
  chains : List (Location × List Key)
  waiting : List (Location × List Int)
deriving DecidableEq

namespace Graph

/-- A computation that changes a graph and may be refused part of the way. -/
abbrev Edit (α : Type) := EStateM Error Graph α

/-- The graph of nothing but the first event. -/
def initial : Graph :=
  { nodes := [Node.new Event.initial .empty], tasks := [], order := [.init], chains := [],
    waiting := [] }

/-! ### The table of nodes -/

/-- The node with a key. -/
def find? (g : Graph) (k : Key) : Option Node := g.nodes.find? fun n => n.key == k

/-- Changes the node with a key. -/
def modifyNode (g : Graph) (k : Key) (f : Node → Node) : Graph :=
  { g with nodes := g.nodes.map fun n => if n.key = k then f n else n }

/-- The clock of the node with a key. -/
def clockOf (g : Graph) (k : Key) : Clock := ((g.find? k).map (·.clock)).getD .empty

/-- The kind of the node with a key; no event has it when the key is missing. -/
def kindOf? (g : Graph) (k : Key) : Option Kind := (g.find? k).map (·.kind)

/-- Whether one event happens before another, by their clocks. -/
def happensBefore (g : Graph) (a b : Key) : Bool :=
  match g.find? a, g.find? b with
  | some m, some n => m.happensBefore n
  | _, _ => false

/-- Adds an edge. Unless it is a coherency edge, the target learns what the source knows. -/
def link (g : Graph) (a b : Key) (r : Relation) : Graph :=
  let g₁ := g.modifyNode a fun m => { m with succ := m.succ.insert r b }
  let g₂ := g₁.modifyNode b fun n => { n with pred := n.pred.insert r a }
  if r.ordersTime then g₂.modifyNode b fun n => { n with clock := n.clock.merge (g.clockOf a) }
  else g₂

/-- Removes an edge; clocks stay as they are. -/
def unlink (g : Graph) (a b : Key) (r : Relation) : Graph :=
  let g₁ := g.modifyNode a fun m => { m with succ := m.succ.erase r b }
  g₁.modifyNode b fun n => { n with pred := n.pred.erase r a }

/-! ### Looking up -/

/-- The keys of a task in program order. -/
def taskKeys (g : Graph) (task : Int) : List Key :=
  if 0 ≤ task then g.tasks[task.toNat]?.getD [] else []

/-- The node that a key names: the first event, or the node at the key's place in its task. -/
def node? (g : Graph) (k : Key) : Option Node :=
  if k.isInit then g.order.head?.bind g.find?
  else if 0 ≤ k.seq then (g.taskKeys k.task)[k.seq.toNat]?.bind g.find?
  else none

/-- The node that a key names, or the complaint that there is none. -/
def node (g : Graph) (k : Key) : Except Error Node :=
  match g.node? k with
  | some n => .ok n
  | none => .error (.noSuchEvent k)

/-- Whether a key names a node. -/
def contains (g : Graph) (k : Key) : Bool := (g.node? k).isSome

/-- The place of a key in the total order. -/
def indexOf? (g : Graph) (k : Key) : Option Nat := g.order.findIdx? fun x => x == k

/-- The nodes in total order. -/
def events (g : Graph) : List Node := g.order.filterMap g.find?

/-- The number of events in the total order. -/
def size (g : Graph) : Nat := g.order.length

/-- Whether there is nothing but the first event. -/
def isEmpty (g : Graph) : Bool :=
  match g.events with
  | [n] => n.kind = .init
  | _ => false

/-- The graph without anything, the first event included. -/
def cleared : Graph := { nodes := [], tasks := [], order := [], chains := [], waiting := [] }

/-- The coherency chain of a location, oldest first. -/
def chain? (g : Graph) (loc : Location) : Option (List Key) := g.chains.lookup loc

/-- The coherency chain of a location; empty when nothing has touched it. -/
def chain (g : Graph) (loc : Location) : List Key := (g.chain? loc).getD []

/-- Puts a chain in place of that of a location. -/
def setChain (g : Graph) (loc : Location) (ks : List Key) : Graph :=
  { g with
    chains :=
      if (g.chain? loc).isSome then g.chains.map fun c => if c.1 = loc then (loc, ks) else c
      else g.chains ++ [(loc, ks)] }

/-- The key of the last node of a task, or of the first event when the task has none. -/
def lastOf (g : Graph) (task : Int) : Key := (g.taskKeys task).getLast?.getD .init

/-- The kind of the last node of a task, or of the first event when the task has none. -/
def lastKind? (g : Graph) (task : Int) : Option Kind := g.kindOf? (g.lastOf task)

/-! ### Adding events -/

/-- The graph with lists for all tasks up to one. -/
def ensureTask (g : Graph) (task : Int) : Graph :=
  { g with tasks := g.tasks ++ List.replicate (task.toNat + 1 - g.tasks.length) [] }

/-- Puts a node at the end of its task, after the last one there, and links it by program order. -/
def appendToTask (g : Graph) (node : Node) : Graph :=
  let task := node.key.task
  let last := g.lastOf task
  let g := { g with
    nodes := g.nodes ++ [node]
    tasks := g.tasks.modify task.toNat fun ks => ks ++ [node.key] }
  g.link last node.key .programOrder

/-- Adds an event at the end of its task and of the total order. Threads that the task has spawned
since its previous event are ordered before it, and its location gets a chain. -/
def insertEvent (g : Graph) (e : Event) : Graph :=
  let last := g.lastOf e.task
  let e := { e with
    key := ⟨e.task, (g.taskKeys e.task).length⟩
    stamp := g.order.length }
  let children :=
    if last.isInit then [] else ((g.find? last).map (·.successors .threadStart)).getD []
  let g := g.appendToTask (Node.new e ((g.clockOf last).successor e.task.toNat))
  let g := { g with order := g.order ++ [e.key] }
  let g := children.foldl (fun g child => g.link child e.key .threadCreation) g
  if e.hasLocation && (g.chain? e.location).isNone then g.setChain e.location [.init] else g

/-- Adds an event. A task that has finished or is blocked takes no more events. -/
def addEvent (e : Event) : Edit Key := do
  if e.task < 0 then throw (.corrupt (.negativeTask e.task))
  modify fun g => g.ensureTask e.task
  let g ← get
  match g.lastKind? e.task with
  | some .block => throw .eventAfterBlock
  | some .threadFinish => throw .eventAfterBlock
  | _ =>
    let g := g.insertEvent e
    set g
    return g.lastOf e.task

/-! ### The life of threads -/

/-- Orders the start of a thread after the previous start of a thread. -/
def trackThreadCreates (g : Graph) (k : Key) : Graph :=
  if g.kindOf? k = some .threadStart then
    let starts := g.chain .thread
    let starts := if starts.isEmpty then [.init] else starts
    let g := g.link (starts.getLast?.getD .init) k .threadCreation
    g.setChain .thread (starts ++ [k])
  else g

/-- Whether a task has a node. -/
def hasNodes (g : Graph) (task : Int) : Bool := !(g.taskKeys task).isEmpty

/-- Orders the start of a thread after the last event of the task that spawned it. -/
def trackThreadStarts (g : Graph) (k : Key) : Except Error Graph :=
  match g.find? k with
  | none => .ok g
  | some n =>
    if n.kind ≠ .threadStart then .ok g
    else
      match n.event.startedBy? with
      | some parent =>
        if g.hasNodes parent then .ok (g.link (g.lastOf parent) k .threadStart)
        else .error (.corrupt (.noSpawner k))
      | none => .error (.corrupt (.noSpawner k))

/-- Orders a join after the last event of the task that was joined. -/
def trackThreadJoins (g : Graph) (k : Key) : Except Error Graph :=
  match g.find? k with
  | none => .ok g
  | some n =>
    if n.kind ≠ .threadJoin then .ok g
    else
      match n.event.joinedTask? with
      | some target =>
        if g.hasNodes target then .ok (g.link (g.lastOf target) k .threadJoin)
        else .error (.corrupt (.noJoined k))
      | none => .error (.corrupt (.noJoined k))

/-! ### Blocking labels and locks -/

/-- Puts a blocking label at the end of a task. -/
def block (g : Graph) (task : Int) : Graph :=
  let g := g.ensureTask task
  let last := g.lastOf task
  let label := { Event.new task .block .none with key := ⟨task, (g.taskKeys task).length⟩ }
  g.appendToTask (Node.new label ((g.clockOf last).successor task.toNat))

/-- Whether a task ends in a blocking label. -/
def isBlocked (g : Graph) (task : Int) : Bool :=
  g.hasNodes task && g.lastKind? task == some .block

/-- Takes the last node off a task, which is a blocking label. -/
def dropLabel (g : Graph) (task : Int) : Graph :=
  let label := g.lastOf task
  let g := { g with tasks := g.tasks.modify task.toNat List.dropLast }
  let g := g.unlink (g.lastOf task) label .programOrder
  if g.order.contains label then g
  else { g with nodes := g.nodes.filter fun n => n.key != label }

/-- Takes the blocking label off a task. -/
def unblock (g : Graph) (task : Int) : Except Error Graph :=
  if g.isBlocked task then .ok (g.dropLabel task) else .error (.corrupt (.notBlocked task))

/-- The tasks that are not blocked. -/
def unblockedTasks (g : Graph) : List Int :=
  ((List.range g.tasks.length).map Int.ofNat).filter fun t => !g.isBlocked t

/-- The tasks that wait for a lock, in the order in which they came. -/
def waitingFor (g : Graph) (loc : Location) : List Int := (g.waiting.lookup loc).getD []

/-- Puts a list of waiting tasks in place of that of a lock; an empty one is dropped. -/
def setWaiting (g : Graph) (loc : Location) (ts : List Int) : Graph :=
  let others := g.waiting.filter fun w => w.1 != loc
  { g with waiting := if ts.isEmpty then others else others ++ [(loc, ts)] }

/-- Blocks a task that found a lock held and lists it as waiting for the lock. -/
def blockForLock (g : Graph) (task : Int) (loc : Location) : Graph :=
  let g := if g.isBlocked task then g else g.block task
  let ts := g.waitingFor loc
  if ts.contains task then g else g.setWaiting loc (ts ++ [task])

/-- Takes the blocking label off every task that waits for a lock. The tasks go on waiting until
they acquire it. -/
def unblockForLock (g : Graph) (loc : Location) : Graph :=
  (g.waitingFor loc).foldl (fun g t => if g.isBlocked t then g.dropLabel t else g) g

/-- Lets a task stop waiting for a lock and blocks all others that wait for it. -/
def acquireLock (g : Graph) (loc : Location) (task : Int) : Graph :=
  match g.waiting.lookup loc with
  | none => g
  | some ts =>
    let others := ts.filter fun t => t != task
    others.foldl (fun g t => if g.isBlocked t then g else g.block t) (g.setWaiting loc others)

/-- Whether a task is listed as waiting for a lock. -/
def isWaiting (g : Graph) (loc : Location) (task : Int) : Bool := (g.waitingFor loc).contains task

/-! ### Copies -/

/-- The labels that stand in a task. -/
def isLabel (g : Graph) (k : Key) : Bool := g.kindOf? k == some .block

/-- The graph without blocking labels and without tasks waiting for locks. -/
def copy (g : Graph) : Graph :=
  let labels := (g.tasks.flatten).filter g.isLabel
  let before (ks : List Key) (label : Key) : Key :=
    ((ks.takeWhile fun k => k != label).filter fun k => !g.isLabel k).getLast?.getD .init
  let cut := g.tasks.foldl
    (fun acc ks => (ks.filter g.isLabel).foldl
      (fun acc label => acc.modifyNode (before ks label)
        fun n => { n with succ := n.succ.erase .programOrder label })
      acc)
    g
  { nodes := cut.nodes.filter fun n => !labels.contains n.key
    tasks := g.tasks.map fun ks => ks.filter fun k => !g.isLabel k
    order := g.order
    chains := g.chains
    waiting := [] }

/-- A key that a chain lists although its event is gone, if there is one. A graph with such a key
cannot be copied. -/
def dangling? (g : Graph) : Option Key :=
  (g.chains.flatMap (·.2)).find? fun k => (g.node? k).all fun n => n.kind = .block

end Graph

end Interleaving
