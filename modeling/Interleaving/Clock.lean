import Interleaving.Text.Numeral

/-!
# Vector clocks

A clock counts, for every task, the events of the task that are known to have happened. Components
that a clock does not list are zero, so clocks of different lengths compare as if padded.

`Interleaving.Clock.merge` is the least clock above two others, `Interleaving.Clock.successor` the
clock of the next event of a task, and `Interleaving.Clock.before` the strict order between them.
-/

namespace Interleaving

/-- A counter for every task; those not listed are zero. -/
structure Clock where
  counts : List Int
deriving DecidableEq

namespace Clock

/-- The clock of nothing. -/
def empty : Clock := ⟨[]⟩

/-- The counter of a task. -/
def count (c : Clock) (task : Nat) : Int := c.counts[task]?.getD 0

/-- The clock with at least `n` listed counters. -/
def grow (c : Clock) (n : Nat) : Clock :=
  ⟨c.counts ++ List.replicate (n - c.counts.length) 0⟩

/-- The clock of the next event of a task. -/
def successor (c : Clock) (task : Nat) : Clock :=
  ⟨(c.grow (task + 1)).counts.modify task fun n => Word.wrap (n + 1)⟩

/-- The counterwise maximum of the listed counters: those beyond the second clock are taken from
the first. -/
def mergeCounts : List Int → List Int → List Int
  | [], bs => bs.map fun b => max 0 b
  | as, [] => as
  | a :: as, b :: bs => max a b :: mergeCounts as bs

/-- The counterwise maximum. -/
def merge (a b : Clock) : Clock := ⟨mergeCounts a.counts b.counts⟩

/-- Whether every counter of `a` is at least that of `b`. -/
def dominates (a b : Clock) : Bool :=
  (List.range (max a.counts.length b.counts.length)).all fun i => decide (b.count i ≤ a.count i)

/-- Whether all counters are equal. -/
def equal (a b : Clock) : Bool :=
  (List.range (max a.counts.length b.counts.length)).all fun i => a.count i == b.count i

/-- Whether `a` is strictly before `b`: below it and different from it. -/
def before (a b : Clock) : Bool := b.dominates a && !a.equal b

/-- The text of a clock. -/
def text (c : Clock) : String := "[" ++ ", ".intercalate (c.counts.map Text.decimal) ++ "]"

end Clock

end Interleaving
