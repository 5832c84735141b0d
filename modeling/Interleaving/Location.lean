import Interleaving.Event.Basic

/-!
# Known locations and aliases

Every run of a program may number its memory differently. While a recorded schedule is replayed,
each number that differs from the one in the graph becomes an alias of it; once the replay is over,
new events are moved to the numbers of the graph by `Interleaving.LocationTable.resolve`.
-/

namespace Interleaving

/-- The locations that are known, and the numbers of this run that stand for another location. -/
structure LocationTable where
  known : List Location
  aliases : List (Location × Location)
deriving DecidableEq

namespace LocationTable

/-- A table that knows only the location of thread events. -/
def initial : LocationTable := ⟨[.thread], []⟩

/-- Makes a location known. -/
def add (t : LocationTable) (loc : Location) : LocationTable :=
  if t.known.contains loc then t else { t with known := t.known ++ [loc] }

/-- The location that a number stands for. -/
def alias? (t : LocationTable) (loc : Location) : Option Location := t.aliases.lookup loc

/-- Whether a number stands for another location. -/
def hasAlias (t : LocationTable) (loc : Location) : Bool := (t.alias? loc).isSome

/-- Whether a location is known, directly or as an alias. -/
def contains (t : LocationTable) (loc : Location) : Bool :=
  t.known.contains loc || t.hasAlias loc

/-- Lets the number `new` stand for the location `old`. -/
def addAlias (t : LocationTable) (old new : Location) : LocationTable :=
  { t.add old with aliases := (new, old) :: t.aliases.filter fun p => p.1 != new }

/-- The location of a number: the one it stands for, or itself, which then becomes known. -/
def resolve (t : LocationTable) (loc : Location) : Location × LocationTable :=
  match t.alias? loc with
  | some old => (old, t)
  | none => (loc, t.add loc)

/-- How many locations are known, aliases left out. -/
def size (t : LocationTable) : Nat := t.known.length

/-- Drops the aliases. -/
def clearAliases (t : LocationTable) : LocationTable := { t with aliases := [] }

/-- Drops the known locations and keeps the aliases. -/
def clear (t : LocationTable) : LocationTable := { t with known := [] }

end LocationTable

end Interleaving
