import Interleaving.Event.Key
import Interleaving.Event.Kind

/-!
# What can go wrong in an execution graph

The causes for which an operation on a graph is refused, and their messages.
-/

namespace Interleaving.Graph

/-- A broken rule of the structure of a graph. -/
inductive Corruption where
  | negativeTask (task : Int)
  | noSpawner (start : Key)
  | noJoined (join : Key)
  | notBlocked (task : Int)
  | noChain (write : Key)
  | readSources (read : Key) (count : Nat)
  | lockReadSources (read : Key) (count : Nat)
  | swapAcross (a b : Key)
  | swapOutside (a b : Key)
  | untrackedLocation (pruned : Key)
  | noPredecessor (k : Key)
  | missingClock (k : Key)
  | missingPredecessorClock (k : Key)
  | strayKey (successor source : Key)
  | alreadyRestricted (write read : Key)
  | lockWritePredecessors (write : Key) (count : Nat)
  | unpairedLockWrite (write : Key)
deriving DecidableEq

/-- What a broken rule is reported as. -/
def Corruption.message : Corruption → String
  | .negativeTask task => "cannot add event with task " ++ Text.decimal task
  | .noSpawner k => "thread start " ++ k.text ++ " has no valid spawning task"
  | .noJoined k => "thread join " ++ k.text ++ " has no valid joined task"
  | .notBlocked task => "task " ++ Text.decimal task ++ " is not blocked"
  | .noChain k => "no coherency chain for " ++ k.text
  | .readSources k n => "read " ++ k.text ++ " has " ++ Nat.repr n ++ " reads-from sources"
  | .lockReadSources k n => "lock read " ++ k.text ++ " has " ++ Nat.repr n ++ " reads-from sources"
  | .swapAcross a b => "swap of " ++ a.text ++ " and " ++ b.text ++ " across locations"
  | .swapOutside a b => "swap of " ++ a.text ++ " and " ++ b.text ++ " outside the coherency chain"
  | .untrackedLocation k => "pruned " ++ k.text ++ " has an untracked location"
  | .noPredecessor k => k.text ++ " has no program-order predecessor"
  | .missingClock k => "clock of " ++ k.text ++ " is missing"
  | .missingPredecessorClock k => "clock of predecessor " ++ k.text ++ " is missing"
  | .strayKey s n => "successor " ++ s.text ++ " of " ++ n.text ++ " is not in the graph"
  | .alreadyRestricted w r =>
    "restricted graph of " ++ w.text ++ " -> " ++ r.text ++ " was already built"
  | .lockWritePredecessors k n =>
    "lock write " ++ k.text ++ " has " ++ Nat.repr n ++ " program order predecessors"
  | .unpairedLockWrite k => "lock write " ++ k.text ++ " does not follow its lock read"

/-- A reason why a completed execution is not consistent. -/
inductive Inconsistency where
  | noOrder
  | unfinishedTask (task : Nat) (last : Kind)
  | unlinked (a b : Key) (location : Int)
  | manySuccessors (write : Key) (count : Nat)
  | readSources (read : Key) (count : Nat)
deriving DecidableEq

/-- What an inconsistency is reported as. -/
def Inconsistency.message : Inconsistency → String
  | .noOrder => "no consistent topological order"
  | .unfinishedTask task last => "task " ++ Nat.repr task ++ " ends with " ++ last.name
  | .unlinked a b loc =>
    a.text ++ " is not linked to " ++ b.text ++ " at location " ++ Text.decimal loc
  | .manySuccessors k n => k.text ++ " has " ++ Nat.repr n ++ " coherency successors"
  | .readSources k n => "read " ++ k.text ++ " has " ++ Nat.repr n ++ " reads-from sources"

/-- Why an operation on a graph is refused. -/
inductive Error where
  | noSuchEvent (k : Key)
  | eventAfterBlock
  | cycle (reached total : Nat)
  | corrupt (cause : Corruption)
  | inconsistent (cause : Inconsistency)
deriving DecidableEq

/-- The message of a refused operation. -/
def Error.message : Error → String
  | .noSuchEvent k => "no such event: " ++ k.text
  | .eventAfterBlock => "event follows a blocking label or thread finish"
  | .cycle reached total =>
    "execution graph has a cycle: reached " ++ Nat.repr reached ++ " of " ++ Nat.repr total ++
      " events"
  | .corrupt cause => "execution graph is corrupt: " ++ cause.message
  | .inconsistent cause => "execution graph is inconsistent: " ++ cause.message

end Interleaving.Graph
