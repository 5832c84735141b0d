import Interleaving.Graph.Basic

/-!
# Alternatives

The questions whose answers are the other executions worth trying: which older writes could a read
have seen, before which writes could a new write have taken effect, and which earlier reads could
have seen it. Answers list the newest write first.
-/

namespace Interleaving.Graph

/-- The last write to a location in coherency order, or the first event. -/
def lastWrite (g : Graph) (loc : Location) : Key := (g.chain loc).getLast?.getD .init

/-- The keys from the newest back to the first one that happens before the target, that one
included. -/
def upToBefore (g : Graph) (target : Key) : List Key → List Key
  | [] => []
  | k :: older => if g.happensBefore k target then [k] else k :: upToBefore g target older

/-- The keys of a chain, newest first, back to the first one that happens before the target, that
one included. -/
def splitBefore (g : Graph) (target : Key) (ks : List Key) : List Key :=
  g.upToBefore target ks.reverse

/-- The location of a node. -/
def locationOf (g : Graph) (k : Key) : Location := ((g.find? k).map (·.location)).getD .none

/-- The writes older than the last one that a read could see instead. -/
def alternativeWrites (g : Graph) (read : Key) : List Key :=
  let writes := g.chain (g.locationOf read)
  if writes.length ≤ 1 then [] else g.splitBefore read writes.dropLast

/-- Whether a key names an exclusive write. -/
def isExclusiveWrite (g : Graph) (k : Key) : Bool :=
  ((g.kindOf? k).map (·.isExclusiveWrite)).getD false

/-- The concurrent earlier writes before which a write could take effect. An exclusive write has
none, and none goes before an exclusive write. -/
def coherentPlacings (g : Graph) (write : Key) : Except Error (List Key) :=
  if g.isExclusiveWrite write then .ok []
  else
    let after := g.splitBefore write ((g.chain (g.locationOf write)).filter fun k => k != write)
    if after.isEmpty then .error (.corrupt (.noChain write))
    else .ok (after.dropLast.filter fun k => !g.isExclusiveWrite k)

/-- The nodes that read from a node. -/
def readersOf (g : Graph) (write : Key) : Except Error (List Node) :=
  (((g.find? write).map (·.successors .readsFrom)).getD []).mapM g.node

/-- How many exclusive reads of its own location read from a write. -/
def exclusiveReaders (g : Graph) (write : Key) : Except Error Nat :=
  (g.readersOf write).map fun readers =>
    (readers.filter fun r => r.location == g.locationOf write && r.kind.isExclusiveRead).length

/-- Whether a write is worth asking for its readers: an exclusive write only when two exclusive
reads see it, which happens right after the read of a new pair joined an existing one. -/
def hasFreeReaders (g : Graph) (write : Key) : Except Error Bool :=
  if g.isExclusiveWrite write then (g.exclusiveReaders write).map fun n => decide (2 ≤ n)
  else .ok true

/-- The earlier reads of a location that do not happen before a write. -/
def concurrentReaders (g : Graph) (write : Key) (loc : Location) (sources : List Key)
    (wanted : Node → Bool) : Except Error (List Key) := do
  let readers ← sources.mapM g.readersOf
  return ((readers.flatten.filter fun r =>
    wanted r && r.location == loc && !g.happensBefore r.key write).map (·.key))

/-- The reads that a new write could satisfy instead of the writes they see. -/
def potentialReads (g : Graph) (write : Key) : Except Error (List Key) := do
  let loc := g.locationOf write
  let candidates := g.splitBefore write ((g.chain loc).filter fun k => k != write)
  if candidates.isEmpty then throw (.corrupt (.noChain write))
  let free ← candidates.mapM fun k => (g.hasFreeReaders k).map fun b => (k, b)
  g.concurrentReaders write loc ((free.filter (·.2)).map (·.1)) fun _ => true

/-- Whether a key names a lock acquisition that has overtaken another one. -/
def isFinalLockWrite (g : Graph) (k : Key) : Bool :=
  ((g.find? k).map (·.event.isFinalLockWrite)).getD false

/-- Marks a lock acquisition as one that has overtaken another one; older writes to the lock are no
longer alternatives. -/
def markFinalLockWrite (g : Graph) (k : Key) : Graph :=
  g.modifyNode k fun n =>
    { n with event := n.event.set Event.finalLockWriteName (.bool true) }

/-- The lock reads, concurrent with a lock acquisition, that could see it instead. -/
def alternativeLockReads (g : Graph) (write : Key) : Except Error (List Key) :=
  let loc := g.locationOf write
  let tail := ((g.chain loc).reverse.takeWhile fun k => !g.isFinalLockWrite k).reverse
  g.concurrentReaders write loc (g.splitBefore write (tail.filter fun k => k != write))
    fun r => r.kind = .lockAcquireRead

/-- Folds the acquisition of a task into the release that follows it; `released` lists the tasks
whose release has been passed. The keys come newest first, and a final lock write ends them. -/
def foldReleases (g : Graph) : List Int → List Key → List Key
  | _, [] => []
  | released, k :: older =>
    if g.isFinalLockWrite k then []
    else
      match g.kindOf? k with
      | some .lockReleaseWrite => k :: foldReleases g (k.task :: released) older
      | some .lockAcquireWrite =>
        if released.contains k.task then
          foldReleases g (released.filter fun t => t != k.task) older
        else k :: foldReleases g released older
      | _ => k :: foldReleases g released older

/-- The writes to a lock, other than the last one, that a lock read could see. -/
def alternativeLockWrites (g : Graph) (read : Key) : List Key :=
  (g.foldReleases [] (g.splitBefore read (g.chain (g.locationOf read)))).drop 1

/-- Every write that stands in a coherency chain. -/
def allWrites (g : Graph) : List Key :=
  (g.chains.flatMap (·.2)).filter fun k => ((g.kindOf? k).map (·.isWrite)).getD false

end Interleaving.Graph
