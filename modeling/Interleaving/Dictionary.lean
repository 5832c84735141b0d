/-!
# Dictionaries

Values by name. A dictionary keeps its entries in the order of their names and holds every name
once, so two dictionaries with the same entries are equal, however they were built.
-/

namespace Interleaving

/-- Values by name, in the order of the names. -/
structure Dictionary (α : Type) where
  entries : List (String × α)
deriving DecidableEq

namespace Dictionary

variable {α β : Type}

/-- No entries. -/
def empty : Dictionary α := ⟨[]⟩

instance : Inhabited (Dictionary α) := ⟨empty⟩

/-- The value under a name. -/
def get? (d : Dictionary α) (name : String) : Option α := d.entries.lookup name

/-- Puts a value under a name in a list sorted by name. -/
def insertEntry (name : String) (v : α) : List (String × α) → List (String × α)
  | [] => [(name, v)]
  | (n, w) :: rest =>
    if name = n then (name, v) :: rest
    else if name < n then (name, v) :: (n, w) :: rest
    else (n, w) :: insertEntry name v rest

/-- Puts a value under a name, in place of the one that was there. -/
def set (d : Dictionary α) (name : String) (v : α) : Dictionary α :=
  ⟨insertEntry name v d.entries⟩

/-- Takes the value under a name away. -/
def erase (d : Dictionary α) (name : String) : Dictionary α :=
  ⟨d.entries.filter fun e => e.1 ≠ name⟩

/-- The dictionary of a list of entries; the last one under a name wins. -/
def ofList (entries : List (String × α)) : Dictionary α :=
  entries.foldl (fun d e => d.set e.1 e.2) empty

/-- The names, in increasing order. -/
def names (d : Dictionary α) : List String := d.entries.map (·.1)

/-- Whether a name has a value. -/
def has (d : Dictionary α) (name : String) : Bool := (d.get? name).isSome

/-- Changes every value. -/
def map (f : α → β) (d : Dictionary α) : Dictionary β :=
  ⟨d.entries.map fun (n, v) => (n, f v)⟩

/-- The number of entries. -/
def size (d : Dictionary α) : Nat := d.entries.length

end Dictionary

end Interleaving
