import Interleaving.Text.Numeral
import Interleaving.Text.Quoted

/-!
# Relations between events

The kinds of edges of an execution graph. All of them but coherency order their ends in time; the
edges from a read to the write that overwrites what it saw exist only while consistency is checked.
-/

namespace Interleaving

/-- What an edge between two events says. -/
inductive Relation where
  /-- The target reads what the source wrote. -/
  | readsFrom
  /-- The target is the next write to the location after the source. -/
  | coherency
  /-- The target is the next event of the task. -/
  | programOrder
  /-- The target comes after a thread was created. -/
  | threadCreation
  /-- The target is the first event of a thread that the source's task spawned. -/
  | threadStart
  /-- The target waited for the end of the source's task. -/
  | threadJoin
  /-- The target overwrites what the source read. -/
  | fromRead
deriving DecidableEq

namespace Relation

/-- All relations, in the order of their codes. -/
def all : List Relation :=
  [.readsFrom, .coherency, .programOrder, .threadCreation, .threadStart, .threadJoin, .fromRead]

/-- The name of a relation. -/
def name : Relation → String
  | .readsFrom => "ReadsFrom"
  | .coherency => "Coherency"
  | .programOrder => "ProgramOrder"
  | .threadCreation => "ThreadCreation"
  | .threadStart => "ThreadStart"
  | .threadJoin => "ThreadJoin"
  | .fromRead => "FR"

/-- The relation with a name. -/
def ofName? (s : String) : Option Relation := all.find? fun r => r.name == s

/-- The message about a name that no relation has. -/
def unknownName (s : String) : String := "unknown relation " ++ Text.quote s

/-- The name of the relation with a code; a code without a relation is named by its number. -/
def nameOfCode (code : UInt8) : String :=
  match all[code.toNat]? with
  | some r => r.name
  | none => "Relation(" ++ Text.decimal code.toNat ++ ")"

/-- The relations in the order of their names. -/
def byName : List Relation :=
  [.coherency, .fromRead, .programOrder, .readsFrom, .threadCreation, .threadJoin, .threadStart]

/-- Whether an edge orders its ends in time. -/
def ordersTime (r : Relation) : Bool := r != .coherency

end Relation

end Interleaving
