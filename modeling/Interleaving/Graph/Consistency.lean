import Interleaving.Graph.Edit

/-!
# Sequential consistency

A graph is sequentially consistent when its events can be put in one order that keeps program order
and the edges of threads, in which the writes of every location take effect in chain order and every
read sees the latest write before it. `Interleaving.Graph.consistentOrder` decides this: it adds an
edge from every read to the write after the one it sees, and looks for a topological order. An
atomic update must also follow the write it read without another write in between.
-/

namespace Interleaving.Graph

/-- The write that completes an exclusive read, if it is there. -/
def pairedWrite? (g : Graph) (read : Node) : Option Node :=
  (read.successors .programOrder).findSome? fun k =>
    match g.node? k with
    | some n =>
      if n.key.task = read.key.task && read.kind.pairsWith n.kind then some n else none
    | none => none

/-- What the check of a chain has found so far. -/
inductive Verdict where
  | consistent (g : Graph)
  | inconsistent

/-- Checks the readers of one write and orders each before the next write. `exclusive` counts the
exclusive reads seen so far. -/
def checkReaders (loc : Location) (next : Option Key) :
    Nat → List Key → Graph → Except Error (Nat × Verdict)
  | exclusive, [], g => .ok (exclusive, .consistent g)
  | exclusive, k :: more, g => do
    let r ← g.node k
    if r.location ≠ loc then checkReaders loc next exclusive more g
    else
      let exclusive' := if r.kind.isExclusiveRead then exclusive + 1 else exclusive
      let torn := r.kind.isExclusiveRead &&
        match g.pairedWrite? r with
        | some w => some w.key != next
        | none => false
      if torn then return (exclusive', .inconsistent)
      else
        match next with
        | some w => checkReaders loc next exclusive' more (g.link r.key w .fromRead)
        | none => checkReaders loc next exclusive' more g

/-- Checks the writes of a chain from one of them on. No write has two exclusive readers. -/
def checkChain (loc : Location) : List Key → Graph → Except Error Verdict
  | [], g => .ok (.consistent g)
  | w :: more, g => do
    let readers := ((g.find? w).map (·.successors .readsFrom)).getD []
    match ← checkReaders loc more.head? 0 readers g with
    | (_, .inconsistent) => return .inconsistent
    | (exclusive, .consistent g) =>
      if exclusive > 1 then return .inconsistent else checkChain loc more g

/-- Checks all chains. -/
def checkChains : List (Location × List Key) → Graph → Except Error Verdict
  | [], g => .ok (.consistent g)
  | (loc, writes) :: more, g => do
    match ← checkChain loc writes g with
    | .inconsistent => return .inconsistent
    | .consistent g => checkChains more g

/-- Places every exclusive read right before the write that completes it. `deferred` holds the reads
passed over so far, each with the key of its write; `present` the nodes of the whole order. -/
def placePairs (present : List Node) : List (Key × Node) → List Node → List Node
  | _, [] => []
  | deferred, n :: more =>
    let pair? := present.find? fun w => w.key == (⟨n.key.task, n.key.seq + 1⟩ : Key)
    let postponed? := pair?.filter fun w =>
      n.kind.isExclusiveRead && n.kind.pairsWith w.kind && (more.head?.map (·.key)) != some w.key
    match postponed? with
    | some w => placePairs present ((w.key, n) :: deferred) more
    | none =>
      match deferred.lookup n.key with
      | some r => r :: n :: placePairs present (deferred.filter fun d => d.1 != n.key) more
      | none => n :: placePairs present deferred more

/-- An order that explains the graph under sequential consistency, or `none` when there is none. A
graph whose keys do not resolve is refused. -/
def consistentOrder (g : Graph) : Except Error (Option (List Node)) := do
  let c := g.copy
  match ← checkChains c.chains c with
  | .inconsistent => return none
  | .consistent c =>
    match c.topologicalOrder with
    | .ok sorted => return some (placePairs sorted [] sorted)
    | .error (.cycle _ _) => return none
    | .error e => throw e

/-- Whether two graphs have the same events and the same edges. -/
def equal (g h : Graph) : Bool :=
  g.size == h.size &&
    match g.topologicalOrder, h.topologicalOrder with
    | .ok a, .ok b =>
      a.length == b.length && (a.zip b).all fun (m, n) => m.key == n.key && m.sameEdges n
    | _, _ => false

/-! ### Completed executions -/

/-- The way in which a task has not come to its end, if so. -/
def unfinished? (g : Graph) (task : Nat) : Option Inconsistency :=
  if !g.hasNodes task then none
  else
    match g.find? (g.lastOf task) with
    | none => none
    | some n =>
      if n.kind = .threadFinish || n.kind = .block || (n.kind = .assume && !n.event.holds) then none
      else some (.unfinishedTask task n.kind)

/-- The first place where a chain is not linked or a write has two coherency successors. -/
def chainFault? (g : Graph) (loc : Location) : List Key → Option Inconsistency
  | a :: b :: more =>
    match g.find? a with
    | none => chainFault? g loc (b :: more)
    | some n =>
      if !n.hasEdge .coherency b then some (.unlinked a b loc)
      else
        let count := (n.successors .coherency).length
        if !a.isInit && 1 < count then some (.manySuccessors a count)
        else chainFault? g loc (b :: more)
  | _ => none

/-- Whether the writes of every chain are linked one after the other. -/
def checkCoherencyEdges (g : Graph) : Except Error Unit :=
  match g.chains.findSome? fun c =>
      if c.1 = .thread then none else g.chainFault? c.1 c.2 with
  | some cause => .error (.inconsistent cause)
  | none => .ok ()

/-- Whether every read sees exactly one write. -/
def checkReadsFromEdges (g : Graph) : Except Error Unit :=
  match g.events.find? fun n => n.kind.isRead && (n.predecessors .readsFrom).length != 1 with
  | some n =>
    .error (.inconsistent (.readSources n.key (n.predecessors .readsFrom).length))
  | none => .ok ()

/-- Whether the graph is that of a completed execution: it is consistent, every task has come to its
end, every chain is linked and every read sees one write. -/
def checkExtensive (g : Graph) : Except Error Unit := do
  match ← g.consistentOrder with
  | none => throw (.inconsistent .noOrder)
  | some _ =>
    match (List.range g.tasks.length).findSome? g.unfinished? with
    | some cause => throw (.inconsistent cause)
    | none =>
      g.checkCoherencyEdges
      g.checkReadsFromEdges

end Interleaving.Graph
