/-!
# Sorting

Lists in increasing order, by inserting one element after the other. Elements that neither precede
the other keep the order in which they came. The recursion is on the list alone, so a sorted list
can be computed inside a proof.
-/

namespace Interleaving.Sorting

variable {α : Type} (le : α → α → Bool)

/-- Puts an element in front of the first one that it may precede. -/
def insert (a : α) : List α → List α
  | [] => [a]
  | b :: bs => if le a b then a :: b :: bs else b :: insert a bs

/-- The elements in increasing order. -/
def sort : List α → List α
  | [] => []
  | a :: as => insert le a (sort as)

end Interleaving.Sorting
