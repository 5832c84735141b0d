/-!
# Ranges of characters

Classes of characters as tables: closed intervals of code points in increasing order.
-/

namespace Interleaving.Text

/-- Looks for the interval that holds `n` among those numbered from `lo` up to but not including
`hi`, halving the candidates `fuel` times at most. -/
def inRangesFrom (table : Array (Nat × Nat)) (n : Nat) : Nat → Nat → Nat → Bool
  | 0, _, _ => false
  | fuel + 1, lo, hi =>
    if hi ≤ lo then false
    else
      let mid := (lo + hi) / 2
      match table[mid]? with
      | none => false
      | some (a, b) =>
        if n < a then inRangesFrom table n fuel lo mid
        else if b < n then inRangesFrom table n fuel (mid + 1) hi
        else true

/-- Whether a code point lies in one of the intervals. -/
def inRanges (table : Array (Nat × Nat)) (n : Nat) : Bool :=
  inRangesFrom table n table.size 0 table.size

end Interleaving.Text
