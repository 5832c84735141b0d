import Interleaving.Exploration.Engine

/-!
# Recording a run

How each event of a run enters the graph, and which alternatives it opens. A read may see an older
write; a write may take effect earlier or be seen by an earlier read; a lock acquisition may
overtake another one. Alternatives are pushed so that the newest is tried first.

While a schedule is replayed, an event is only compared with its head: a location that differs from
the recorded one becomes an alias of it.
-/

namespace Interleaving.Engine

/-- The backward revisits of a new write that no other revisit makes superfluous. -/
def maximalRevisits (write : Key) (reads : List Key) : Step (List BackwardRevisit) := do
  match reads with
  | [] => return []
  | r :: more =>
    match BackwardRevisit.new (← get).graph write r with
    | .error e => throw (.revisit e)
    | .ok view =>
      match view.isMaximal with
      | .error e => throw (.graph e)
      | .ok accepted =>
        let views ← maximalRevisits write more
        return if accepted then view :: views else views

/-- Applies a backward revisit and puts the result on the stack. -/
def pushRevisit (view : BackwardRevisit)
    (build : Key → Graph → List Event → Alternative) : Step Unit := do
  match view.restrict.2 with
  | .error e => throw (.graph e)
  | .ok restricted => push (build view.write restricted view.additional.toList)

/-- Applies backward revisits one after the other. -/
def pushRevisits (build : Key → Graph → List Event → Alternative) :
    List BackwardRevisit → Step Unit
  | [] => return
  | view :: more => do
    pushRevisit view build
    pushRevisits build more

/-- Puts a change for each of several older writes on the stack. -/
def pushEach (build : Key → Graph → Alternative) : List Key → Step Unit
  | [] => return
  | k :: more => do
    push (build k (← get).graph)
    pushEach build more

/-- A plain read or the read of an atomic update. A read after the last write has no choice;
any other read may see an older write. -/
def recordRead (e : Event) : Step Unit := do
  let read ← onGraph (Graph.addEvent e)
  let g := (← get).graph
  let last := g.lastWrite e.location
  if g.happensBefore last read then modifyGraph fun g => g.setReadsFrom read last
  else
    let older := g.alternativeWrites read
    modifyGraph fun g => g.setReadsFrom read last
    let additional :=
      if e.kind = .readExclusive then [Event.new e.task .writeExclusive e.location] else []
    pushEach (fun w g => Alternative.readFrom read w g additional) older.reverse

/-- A plain write: it may take effect before an older one, or be seen by an earlier read. -/
def recordWrite (e : Event) : Step Unit := do
  let write ← onGraph (Graph.addEvent e)
  let placings ← ask fun g => g.coherentPlacings write
  pushEach (fun before g => Alternative.writeBefore write before g) placings.reverse
  let reads ← ask fun g => g.potentialReads write
  let views ← maximalRevisits write reads
  pushRevisits Alternative.backward views.reverse
  modifyGraph fun g => g.trackCoherency write

/-- Applies the revisits of an atomic update; the task of an exclusive read that is revisited is
blocked. -/
def pushExclusiveRevisits : List BackwardRevisit → Step Unit
  | [] => return
  | view :: more => do
    let exclusive := ((view.graph.kindOf? view.read).map (·.isExclusiveRead)).getD false
    let task := view.read.task
    if exclusive && !(← get).graph.isBlocked task then modifyGraph fun g => g.block task
    pushRevisit view Alternative.backward
    pushExclusiveRevisits more

/-- The write of an atomic update: only earlier reads may see it instead. -/
def recordExclusiveWrite (e : Event) : Step Unit := do
  let write ← onGraph (Graph.addEvent e)
  let reads ← ask fun g => g.potentialReads write
  let views ← maximalRevisits write reads
  modifyGraph fun g => g.trackCoherency write
  pushExclusiveRevisits views

/-- The read of a lock acquisition. A held lock blocks the task; the acquisition is recorded once
the lock is released. -/
def recordLockRead (e : Event) : Step Unit := do
  let last := (← get).graph.lastWrite e.location
  if (← get).graph.kindOf? last = some .lockAcquireWrite then
    modifyGraph fun g => g.blockForLock e.task e.location
    requestBlock e.task
  else
    let read ← onGraph (Graph.addEvent e)
    let g := (← get).graph
    if g.happensBefore last read then modifyGraph fun g => g.setReadsFrom read last
    else
      let older := g.alternativeLockWrites read
      modifyGraph fun g => g.setReadsFrom read last
      let additional := [Event.new e.task .lockAcquireWrite e.location]
      pushEach (fun w g => Alternative.readFrom read w g additional) older.reverse

/-- The lock read that comes right before a lock write in its task. -/
def pairedLockRead (write : Key) : Step Key := do
  let g := (← get).graph
  match ((g.find? write).map (·.predecessors .programOrder)).getD [] with
  | [k] =>
    let read ← ask fun g => g.node k
    if read.kind ≠ .lockAcquireRead || read.location ≠ g.locationOf write then
      throw (.graph (.corrupt (.unpairedLockWrite write)))
    return read.key
  | ks => throw (.graph (.corrupt (.lockWritePredecessors write ks.length)))

/-- The revisits by which a lock acquisition overtakes earlier ones. An accepted one marks the
acquisition, in the current graph and in its own. -/
def lockRevisits (write own : Key) (reads : List Key) : Step (List BackwardRevisit) := do
  match reads with
  | [] => return []
  | r :: more =>
    match BackwardRevisit.new (← get).graph write r with
    | .error e => throw (.revisit e)
    | .ok view =>
      match view.isMaximal with
      | .error e => throw (.graph e)
      | .ok false => lockRevisits write own more
      | .ok true =>
        match LockRevisit.isPossible (← get).graph r own with
        | .error e => throw (.revisit e)
        | .ok false => lockRevisits write own more
        | .ok true =>
          modifyGraph fun g => g.markFinalLockWrite write
          let views ← lockRevisits write own more
          return view.markFinal :: views

/-- The write of a lock acquisition. A task whose read found the lock held has nothing to record. -/
def recordLockWrite (e : Event) : Step Unit := do
  if (← get).graph.isBlocked e.task then return
  let write ← onGraph (Graph.addEvent e)
  modifyGraph fun g => g.acquireLock e.location e.task
  let reads ← ask fun g => g.alternativeLockReads write
  if reads.isEmpty then modifyGraph fun g => g.trackCoherency write
  else
    let own ← pairedLockRead write
    let views ← lockRevisits write own reads
    pushRevisits Alternative.lockBackward views.reverse
    modifyGraph fun g => g.trackCoherency write

/-- The release of a lock lets the tasks that wait for it go on. -/
def recordLockRelease (e : Event) : Step Unit := do
  let write ← onGraph (Graph.addEvent e)
  modifyGraph fun g => g.unblockForLock e.location
  modifyGraph fun g => g.trackCoherency write

/-- A task that waited for a lock has got it: its acquisition is recorded now. -/
def recordLockAcquired (e : Event) : Step Unit := do
  if (← get).graph.isWaiting e.location e.task then
    recordLockRead (Event.new e.task .lockAcquireRead e.location)
    recordLockWrite (Event.new e.task .lockAcquireWrite e.location)

/-- An assumption; a false one blocks its task. -/
def recordAssume (e : Event) : Step Unit := do
  let _ ← onGraph (Graph.addEvent e)
  if !e.holds then requestBlock e.task

/-- An event of the life of a thread, or a marker. -/
def recordMarker (e : Event) : Step Unit := do
  let k ← onGraph (Graph.addEvent e)
  match e.kind with
  | .threadStart =>
    modifyGraph fun g => g.trackThreadCreates k
    if e.task ≠ 0 then changeGraph fun g => g.trackThreadStarts k
  | .threadJoin => changeGraph fun g => g.trackThreadJoins k
  | _ => return

/-- Records an event in the graph. -/
def record (e : Event) : Step Unit :=
  match e.kind with
  | .read => recordRead e
  | .readExclusive => recordRead e
  | .write => recordWrite e
  | .writeExclusive => recordExclusiveWrite e
  | .lockAcquireRead => recordLockRead e
  | .lockAcquireWrite => recordLockWrite e
  | .lockReleaseWrite => recordLockRelease e
  | .lockAcquired => recordLockAcquired e
  | .assume => recordAssume e
  | .threadStart => recordMarker e
  | .threadFinish => recordMarker e
  | .threadJoin => recordMarker e
  | .noop => recordMarker e
  | kind => throw (.unexpectedKind kind)

/-! ### Replaying -/

/-- The engine after an event under the head of the schedule, unless the schedule goes on: the last
entry is used up by the event itself, except by the first half of an exclusive pair. -/
def consumeEnd (a : Engine) (head : ScheduleEntry) (e : Event) : Engine :=
  if head.directive.kind = .finish && !e.kind.isExclusiveRead then
    let rest := a.guiding.drop 1
    { a with guiding := rest, isGuided := a.isGuided && !rest.isEmpty }
  else a

/-- Compares an event with the head of the schedule. -/
def followEvent (a : Engine) (head : ScheduleEntry) (e : Event) : Outcome × Engine :=
  match head.directive.kind with
  | .blockTask => (.haltTask (head.directive.task - 1), a)
  | .blockExecution => (.haltError "encountered a block label", a)
  | _ =>
    let a := a.consumeEnd head e
    if head.hasLocation && !e.hasLocation then
      (.haltError "expected location with event but it contains none", a)
    else
      let a :=
        if head.hasLocation && e.location ≠ head.location && !a.locations.hasAlias e.location then
          { a with locations := a.locations.addAlias head.location e.location }
        else a
      let a := if e.kind = .assume && !e.holds then { a with mustBlock := some e.task } else a
      (.proceed, a)

/-- Moves an event to the location of the graph that its own stands for. -/
def resolveLocation (a : Engine) (e : Event) : Event × Engine :=
  if e.hasLocation then
    let (loc, table) := a.locations.resolve e.location
    ({ e with location := loc }, { a with locations := table })
  else (e, a)

/-- Processes an event of the running program. -/
def update (a : Engine) (e : Event) : Except Error Outcome × Engine :=
  if e.kind = .error then (.ok (.haltError e.message), a)
  else if e.kind = .finish then (.ok .haltOk, a)
  else
    match a.isGuiding, a.guiding with
    | true, head :: _ =>
      let (outcome, a) := a.followEvent head e
      (.ok outcome, a)
    | _, _ =>
      let (e, a) := a.resolveLocation e
      match (record e).run a with
      | .ok _ a => (.ok .proceed, a)
      | .error cause a => (.error ⟨.updateEvent e.kind, cause⟩, a)

end Interleaving.Engine
