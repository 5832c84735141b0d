/-!
# Coverage

How many different execution graphs a search has visited, told apart by their hashes.
-/

namespace Interleaving

/-- The visits of every hash, and the number of different hashes after each visit. -/
structure Coverage where
  visits : List (String × Nat)
  series : List Nat
deriving DecidableEq

namespace Coverage

/-- No visits. -/
def empty : Coverage := ⟨[], []⟩

/-- How often a hash was visited. -/
def visitsOf (c : Coverage) (hash : String) : Nat := (c.visits.lookup hash).getD 0

/-- The number of different hashes. -/
def distinct (c : Coverage) : Nat := c.visits.length

/-- The number of visits. -/
def total (c : Coverage) : Nat := c.series.length

/-- The number of visits to a hash that was known already. -/
def duplicates (c : Coverage) : Nat := c.total - c.distinct

/-- Counts a visit, and tells whether it was the first one to its hash. -/
def record (c : Coverage) (hash : String) : Bool × Coverage :=
  match c.visits.lookup hash with
  | some n =>
    (false,
      { visits := c.visits.map fun v => if v.1 = hash then (hash, n + 1) else v
        series := c.series ++ [c.distinct] })
  | none =>
    (true, { visits := c.visits ++ [(hash, 1)], series := c.series ++ [c.distinct + 1] })

end Coverage

/-- What a search reports about its coverage. -/
structure CoverageSummary where
  distinct : Int
  total : Int
  duplicates : Int
  series : List Int
deriving DecidableEq

/-- Nothing covered. -/
def CoverageSummary.zero : CoverageSummary := ⟨0, 0, 0, []⟩

/-- The summary of what was covered. -/
def Coverage.summary (c : Coverage) : CoverageSummary :=
  { distinct := c.distinct, total := c.total, duplicates := c.duplicates,
    series := c.series.map Int.ofNat }

end Interleaving
