import Interleaving.Graph.Basic
import Interleaving.Graph.Schedule
import Interleaving.Proofs.Machine.Schedule
import Mathlib.Data.List.Perm.Basic

/-!
# The history of a schedule

The **history** of a schedule lists the events of its steps in the order in which they happened,
each under the key that it has in its task (`Interleaving.Program.history?`). An attempt at a lock
that is taken leaves no event, and the step in which the wait ends leaves the whole acquisition.

A history says by itself what every read sees, namely the latest write before it to its location
(`Interleaving.History.sources`), and in which order the writes to a location took effect
(`Interleaving.History.orders`). A graph says both by its edges and its chains. The two are compared
by keys alone, because every run numbers its locations anew (`Interleaving.Graph.Depicts`).
-/

namespace Interleaving

/-! ### Events of steps -/

/-- The events of an observation. The end of a wait for a lock stands for the acquisition. -/
def Observation.recorded (o : Observation) : List Event :=
  let o := if o.kind = .lockAcquired then { o with kind := .lockAcquire } else o
  o.events.toOption.getD []

namespace Machine

/-- Whether a task waits for a lock. -/
def isWaiting (m : Machine) (id : Int) : Bool :=
  match m.task? id with
  | some { state := .waiting _, .. } => true
  | _ => false

/-- The events of a step of a task, after which the machine is `m`. -/
def stepEvents (m : Machine) (id : Int) (seen : List Observation) : List Event :=
  if m.isWaiting id then [] else seen.flatMap Observation.recorded

/-- The events of a schedule, in the order in which they happen. -/
def events? (m : Machine) : List Int → Option (List Event)
  | [] => some []
  | id :: ids =>
    match m.step id with
    | (.error _, _) => none
    | (.ok seen, m') => (m'.events? ids).map fun es => m'.stepEvents id seen ++ es

end Machine

/-! ### Histories -/

/-- Events in the order in which they happened, each under the key that it has in its task. -/
abbrev History := List Event

namespace History

/-- The events after some others, under their keys. -/
def numberAfter (earlier : List Int) : List Event → History
  | [] => []
  | e :: more =>
    { e with key := ⟨e.task, earlier.count e.task⟩ } :: numberAfter (e.task :: earlier) more

/-- The kinds of the events of a task. -/
def kinds (h : History) (task : Int) : List Kind := (h.filter fun e => e.task = task).map (·.kind)

/-- What a read sees after some events, the latest in front: the latest write to its location, or
the first event. -/
def sourceAfter (earlier : History) (read : Event) : Key :=
  match earlier.find? fun e => e.kind.isWrite && e.location == read.location with
  | some write => write.key
  | none => .init

/-- The reads after some events, the latest in front, each with what it sees. -/
def sourcesAfter (earlier : History) : History → List (Key × Key)
  | [] => []
  | e :: more =>
    let rest := sourcesAfter (e :: earlier) more
    if e.kind.isRead then (e.key, sourceAfter earlier e) :: rest else rest

/-- The reads, each with what it sees. -/
def sources (h : History) : List (Key × Key) := sourcesAfter [] h

/-- For every location with events of some kinds, these events in the order in which they
happened. -/
def orders (h : History) (wanted : Kind → Bool) : List (List Key) :=
  let es := h.filter fun e => wanted e.kind
  (es.map (·.location)).eraseDups.map fun loc =>
    (es.filter fun e => e.location = loc).map (·.key)

end History

/-- The history of a schedule of a program: the start of the main task and what comes after it. -/
def Program.history? (p : Program) (ids : List Int) : Option History :=
  (p.start.events? ids).map fun es =>
    History.numberAfter [] ((Observation.threadStart 1 0).recorded ++ es)

/-! ### Histories and graphs -/

/-- Writes to variables. -/
def Kind.writesVariable (k : Kind) : Bool := k = .write || k = .writeExclusive

/-- Acquisitions of locks. -/
def Kind.acquiresLock (k : Kind) : Bool := k = .lockAcquireWrite

namespace Graph

/-- The kinds of the events of a task, labels left out. -/
def kinds (g : Graph) (task : Int) : List Kind :=
  ((g.taskKeys task).filterMap g.kindOf?).filter fun k => k ≠ .block

/-- The reads, each with the writes that it sees. -/
def sources (g : Graph) : List (Key × Key) :=
  g.events.flatMap fun n =>
    if n.kind.isRead then (n.predecessors .readsFrom).map fun w => (n.key, w) else []

/-- For every location with writes of some kinds, these writes in the order of its chain. -/
def orders (g : Graph) (wanted : Kind → Bool) : List (List Key) :=
  (g.chains.map fun c => c.2.filter fun k => (g.kindOf? k).any wanted).filter fun ks => !ks.isEmpty

/-- **A graph depicts a history**: every read sees the same write in both, and the writes to every
variable and the acquisitions of every lock are in the same order. -/
def Depicts (g : Graph) (h : History) : Prop :=
  g.sources.Perm h.sources ∧ (g.orders Kind.writesVariable).Perm (h.orders Kind.writesVariable) ∧
    (g.orders Kind.acquiresLock).Perm (h.orders Kind.acquiresLock)

instance (g : Graph) (h : History) : Decidable (g.Depicts h) :=
  inferInstanceAs (Decidable (_ ∧ _ ∧ _))

end Graph

/-- The task that a directive lets step. -/
def Directive.steps? (d : Directive) : Option Int :=
  if d.kind = .task then some d.task else none

end Interleaving
