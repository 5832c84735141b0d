import Interleaving.Exploration.Recording

/-!
# Choosing the next alternative

At the start of every run but the first the engine takes alternatives off its stack until one makes
a consistent graph. That graph becomes the current one, and its topological order the schedule that
the run replays before it goes its own way.

Trying an alternative can put new ones on the stack, so how many are tried before one succeeds does
not show in the stack. `Interleaving.Engine.select?` has a bound on their number and gives nothing
when the bound is too low.
-/

namespace Interleaving.Engine

/-- Spreads a backward revisit into the places where its write may take effect: before each older
write that allows it, and last. -/
def spread (item : Alternative) : Step Unit := do
  match item.nodes, item.graph with
  | .error e, _ => throw (.alternative e)
  | .ok (write, _), some g =>
    match g.coherentPlacings write with
    | .error e => throw (.graph e)
    | .ok placings =>
      pushEach (fun before _ => Alternative.writeBefore write before g) placings.reverse
      push (Alternative.writeLast write g item.additional)
  | .ok _, none => throw .missingGraph

/-- Adds an event that a revisit took back or made up. -/
def addAgain (e : Event) : Step Unit :=
  match e.kind with
  | .lockAcquireRead => recordLockRead e
  | .lockAcquireWrite => recordLockWrite e
  | .writeExclusive => recordExclusiveWrite e
  | kind => throw (.unexpectedAdditional kind)

/-- Adds events one after the other. -/
def addAllAgain : List Event → Step Unit
  | [] => return
  | e :: more => do
    addAgain e
    addAllAgain more

/-- The order that explains the current graph, if it is consistent. -/
def currentOrder : Step (Option (List Node)) := ask fun g => g.consistentOrder

/-- Makes the change of an alternative to the current graph, which is the alternative's own. -/
def tryAlternative (item : Alternative) : Step (Option (List Node)) := do
  match item.nodes with
  | .error e =>
    match item.kind with
    | .other code => throw (.unexpectedAlternative (.other code))
    | _ => throw (.alternative e)
  | .ok (first, second) =>
    match item.kind, second with
    | .readFrom, some write =>
      changeGraph fun g => g.changeReadsFrom first write
      changeGraph fun g => g.restrict first
      onGraph Graph.recomputeClocks
      addAllAgain item.additional
      currentOrder
    | .writeBefore, some before =>
      modifyGraph fun g => g.trackCoherency first
      changeGraph fun g => g.swapCoherency first before
      changeGraph fun g => g.restrict first
      currentOrder
    | .writeLast, _ =>
      modifyGraph fun g => g.trackCoherency first
      changeGraph fun g => g.restrict first
      if 1 < item.additional.length then
        throw (.manyAdditional item.kind item.additional.length)
      addAllAgain item.additional
      currentOrder
    | kind, _ => throw (.unexpectedAlternative kind)

/-- Deals with the alternative that was on top of the stack: a backward revisit is spread, any other
one is tried, which takes a copy of its graph. The result is the order of a consistent graph, if one
came of it. -/
def process (item : Alternative) : Step (Option (List Node)) := do
  if item.isBackward then
    spread item
    return none
  else
    match item.graph with
    | none => throw .missingGraph
    | some g =>
      match g.dangling? with
      | some k => throw (.graph (.noSuchEvent k))
      | none =>
        modify fun a => { a with graph := g }
        let order ← tryAlternative item
        if order.isNone then modify fun a => { a with inconsistent := a.inconsistent + 1 }
        return order

/-- Takes alternatives off the stack until one makes a consistent graph, and prepares to replay it:
`none` if the fuel does not suffice. -/
def select? : Nat → Engine → Option (Except Error Outcome × Engine)
  | 0, _ => none
  | fuel + 1, a =>
    match a.agenda.pop? with
    | none => some (.ok .haltSearch, a)
    | some (item, agenda) =>
      let a := { a with agenda, popped := a.popped.add item.kind }
      match (process item).run a with
      | .error cause a => some (.error ⟨.process item.kind, cause⟩, a)
      | .ok none a => select? fuel a
      | .ok (some sorted) a =>
        some (.ok .proceed,
          { a with mustBlock := none, guiding := Schedule.ofEvents (sorted.map (·.event)) })

/-- Prepares a run. The first one records freely; every later one replays an alternative first. With
nothing left to explore the search is over; `none` if the fuel does not suffice to find the
alternative. -/
def startRun? (fuel : Nat) (a : Engine) (n : Int) : Option (Except Error Outcome × Engine) :=
  if n = 0 then some (.ok .proceed, a)
  else if a.agenda.items.isEmpty then some (.ok .haltSearch, a)
  else select? fuel { a with locations := a.locations.clearAliases, isGuided := true }

end Interleaving.Engine
