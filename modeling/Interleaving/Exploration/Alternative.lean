import Interleaving.Graph.Basic

/-!
# Alternatives to explore

Each alternative is a graph together with the change that makes another execution of it.
Alternatives wait on a stack, the latest on top; the stack counts what was ever pushed on it.
-/

namespace Interleaving

/-- What an alternative changes. -/
inductive Alternative.Kind where
  /-- A read sees an older write. -/
  | readFrom
  /-- A write takes effect before an older one. -/
  | writeBefore
  /-- A write takes effect last. -/
  | writeLast
  /-- A new write is seen by an earlier read. -/
  | backward
  /-- A lock acquisition overtakes an earlier one. -/
  | lockBackward
  /-- A number without a meaning. -/
  | other (code : UInt8)
deriving DecidableEq

namespace Alternative.Kind

/-- The kinds with a meaning, in the order of their codes. -/
def known : List Kind := [.readFrom, .writeBefore, .writeLast, .backward, .lockBackward]

/-- The kind with a code. -/
def ofCode (code : UInt8) : Kind := known[code.toNat]?.getD (.other code)

/-- The name of a kind. -/
def name : Kind → String
  | .readFrom => "FRW"
  | .writeBefore => "FWW"
  | .writeLast => "FLW"
  | .backward => "BWR"
  | .lockBackward => "LOCK_BWR"
  | .other code => "Kind(" ++ Nat.repr code.toNat ++ ")"

/-- Whether the alternative is made of two events. -/
def hasSecond (k : Kind) : Bool := k = .readFrom || k = .writeBefore

end Alternative.Kind

/-- A change to try on a graph. `first` is the read of a new source and the write in all other
alternatives; `second` is the source or the write to go before, and unused in the others. -/
structure Alternative where
  kind : Alternative.Kind
  first : Key
  second : Key
  graph : Option Graph
  /-- Events to add once the change is made. -/
  additional : List Event

namespace Alternative

/-- A read sees an older write. -/
def readFrom (read write : Key) (g : Graph) (additional : List Event) : Alternative :=
  ⟨.readFrom, read, write, some g.copy, additional⟩

/-- A write takes effect before an older one. -/
def writeBefore (moved before : Key) (g : Graph) : Alternative :=
  ⟨.writeBefore, moved, before, some g.copy, []⟩

/-- A write takes effect last. -/
def writeLast (write : Key) (g : Graph) (additional : List Event) : Alternative :=
  ⟨.writeLast, write, ⟨0, 0⟩, some g, additional⟩

/-- A new write is seen by an earlier read. -/
def backward (write : Key) (restricted : Graph) (additional : List Event) : Alternative :=
  ⟨.backward, write, ⟨0, 0⟩, some restricted, additional⟩

/-- A lock acquisition overtakes an earlier one. -/
def lockBackward (write : Key) (restricted : Graph) (additional : List Event) : Alternative :=
  ⟨.lockBackward, write, ⟨0, 0⟩, some restricted, additional⟩

/-- Whether the alternative still has to be spread into others before it can be tried. -/
def isBackward (a : Alternative) : Bool := a.kind = .backward || a.kind = .lockBackward

/-- The text of an alternative. -/
def text (a : Alternative) : String :=
  if a.kind.hasSecond then
    a.kind.name ++ "(" ++ a.first.text ++ ", " ++ a.second.text ++ ")"
  else a.kind.name ++ "(" ++ a.first.text ++ ")"

/-- Why the events of an alternative cannot be found. -/
inductive Error where
  | noGraph (kind : Kind)
  | node (kind : Kind) (cause : Graph.Error)
deriving DecidableEq

/-- The message about events that cannot be found. -/
def Error.message : Error → String
  | .noGraph kind => kind.name ++ " item has no graph"
  | .node kind cause => kind.name ++ " item: " ++ cause.message

/-- The events of the alternative in its graph: the first, and the second if it is made of two. -/
def nodes (a : Alternative) : Except Error (Key × Option Key) :=
  match a.graph with
  | none => .error (.noGraph a.kind)
  | some g =>
    match g.node a.first with
    | .error e => .error (.node a.kind e)
    | .ok first =>
      if a.kind.hasSecond then
        match g.node a.second with
        | .error e => .error (.node a.kind e)
        | .ok second => .ok (first.key, some second.key)
      else .ok (first.key, none)

end Alternative

/-- How many alternatives of each kind. -/
abbrev Tally := List (Alternative.Kind × Nat)

/-- Counts one more of a kind. -/
def Tally.add (t : Tally) (k : Alternative.Kind) : Tally :=
  match t.lookup k with
  | some n => t.map fun e => if e.1 = k then (k, n + 1) else e
  | none => t ++ [(k, 1)]

/-- The count of a kind. -/
def Tally.count (t : Tally) (k : Alternative.Kind) : Nat := (t.lookup k).getD 0

/-- Alternatives waiting to be explored, the latest on top, and the count of all ever pushed. -/
structure Agenda where
  items : List Alternative
  pushed : Tally

namespace Agenda

/-- Nothing to explore. -/
def empty : Agenda := ⟨[], []⟩

/-- Puts an alternative on top. -/
def push (a : Agenda) (item : Alternative) : Agenda :=
  ⟨item :: a.items, a.pushed.add item.kind⟩

/-- Takes the alternative on top. -/
def pop? (a : Agenda) : Option (Alternative × Agenda) :=
  match a.items with
  | [] => none
  | item :: items => some (item, { a with items })

/-- The alternative on top. -/
def peek? (a : Agenda) : Option Alternative := a.items.head?

/-- How many alternatives wait. -/
def size (a : Agenda) : Nat := a.items.length

/-- Drops all waiting alternatives; the count of what was pushed stays. -/
def clear (a : Agenda) : Agenda := { a with items := [] }

end Agenda

end Interleaving
