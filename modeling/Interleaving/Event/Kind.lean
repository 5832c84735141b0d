import Interleaving.Text.Numeral
import Interleaving.Text.Quoted

/-!
# Kinds of events

The closed list of what an event can be, with the classes the search asks about: reads and writes,
the two halves of an atomic update or of a lock acquisition, lock events, and markers that touch no
memory.
-/

namespace Interleaving

/-- What an event does. -/
inductive Kind where
  | init
  | read
  | readExclusive
  | lockAcquireRead
  | write
  | writeExclusive
  | lockAcquireWrite
  | lockReleaseWrite
  | threadStart
  | threadFinish
  | threadJoin
  | lockAcquired
  | assume
  | noop
  | block
  | finish
  | error
deriving DecidableEq

namespace Kind

/-- All kinds, in the order of their codes. -/
def all : List Kind :=
  [.init, .read, .readExclusive, .lockAcquireRead, .write, .writeExclusive, .lockAcquireWrite,
    .lockReleaseWrite, .threadStart, .threadFinish, .threadJoin, .lockAcquired, .assume, .noop,
    .block, .finish, .error]

/-- The name of a kind. -/
def name : Kind → String
  | .init => "INIT"
  | .read => "READ"
  | .readExclusive => "READ_EX"
  | .lockAcquireRead => "LOCK_ACQUIRE_READ"
  | .write => "WRITE"
  | .writeExclusive => "WRITE_EX"
  | .lockAcquireWrite => "LOCK_ACQUIRE_WRITE"
  | .lockReleaseWrite => "LOCK_RELEASE_WRITE"
  | .threadStart => "THREAD_START"
  | .threadFinish => "THREAD_FINISH"
  | .threadJoin => "THREAD_JOIN"
  | .lockAcquired => "LOCK_ACQUIRED"
  | .assume => "ASSUME"
  | .noop => "NOOP"
  | .block => "BLOCK"
  | .finish => "END"
  | .error => "ERROR"

/-- The kind with a name. -/
def ofName? (s : String) : Option Kind := all.find? fun k => k.name == s

/-- The message about a name that no kind has. -/
def unknownName (s : String) : String := "unknown event kind " ++ Text.quote s

/-- The kind with a code. -/
def ofCode? (code : UInt8) : Option Kind := all[code.toNat]?

/-- The name of the kind with a code; a code without a kind is named by its number. -/
def nameOfCode (code : UInt8) : String :=
  match ofCode? code with
  | some k => k.name
  | none => "KIND(" ++ Text.decimal code.toNat ++ ")"

/-- A read observes the value of a write. -/
def isRead (k : Kind) : Bool := k = .read || k = .readExclusive || k = .lockAcquireRead

/-- An exclusive read is the first half of an atomic update or of a lock acquisition. -/
def isExclusiveRead (k : Kind) : Bool := k = .readExclusive || k = .lockAcquireRead

/-- A write takes part in a coherency chain. -/
def isWrite (k : Kind) : Bool :=
  k = .write || k = .writeExclusive || k = .lockAcquireWrite || k = .lockReleaseWrite

/-- An exclusive write is the second half of an atomic update; lock acquisitions are not meant. -/
def isExclusiveWrite (k : Kind) : Bool := k = .writeExclusive

/-- A paired write is the second half of an atomic update or of a lock acquisition. -/
def isPairedWrite (k : Kind) : Bool := k = .writeExclusive || k = .lockAcquireWrite

/-- Lock events. -/
def isLock (k : Kind) : Bool :=
  k = .lockAcquireRead || k = .lockAcquireWrite || k = .lockReleaseWrite || k = .lockAcquired

/-- Markers neither read nor write memory. -/
def isMarker (k : Kind) : Bool :=
  k = .threadStart || k = .threadFinish || k = .threadJoin || k = .lockAcquired || k = .assume ||
    k = .noop

/-- A blocking label stalls its task. -/
def isBlocking (k : Kind) : Bool := k = .block

/-- Whether a write of kind `w` is the second half of an exclusive read of kind `r`. -/
def pairsWith (r w : Kind) : Bool :=
  (r = .readExclusive && w = .writeExclusive) || (r = .lockAcquireRead && w = .lockAcquireWrite)

end Kind

end Interleaving
