import Interleaving.Text.Letter
import Interleaving.Text.Numeral

/-!
# The natural order of names

Names are ordered as people expect it of names with numbers in them: where two names differ, numbers
are compared by their values, and letters come after everything else, unless a number has just
begun.
-/

namespace Interleaving.Text

/-- The value of the digits at the start of a text, after digits with a value. -/
def leadingNumber (acc : Nat) (cs : List Char) : Nat :=
  (cs.takeWhile isDigit).foldl (fun n c => 10 * n + (c.toNat - 48)) acc

/-- Compares two texts from the characters on in which they differ. `before` are the characters that
they share, the last one first. -/
def naturallyBeforeAt (before : List Char) (a b : Char) (as bs : List Char) : Bool :=
  if isLetter a && isLetter b then a < b
  else if isLetter a || isLetter b then
    if before.head?.any isDigit then isLetter a else isLetter b
  else
    let acc :=
      if (a = '0' || b = '0') && (before.takeWhile isDigit).any (· ≠ '0') then 1 else 0
    let x := leadingNumber acc (a :: as)
    let y := leadingNumber acc (b :: bs)
    let width (cs : List Char) : Nat := (cs.takeWhile isDigit).length
    if x ≠ y then x < y
    else if width (a :: as) ≠ width (b :: bs) then width (a :: as) < width (b :: bs)
    else a < b

/-- Whether a text stands before another one; `before` are the characters before them, which they
share. -/
def naturallyBeforeFrom (before : List Char) : List Char → List Char → Bool
  | a :: as, b :: bs =>
    if a = b then naturallyBeforeFrom (a :: before) as bs else naturallyBeforeAt before a b as bs
  | [], _ :: _ => true
  | _, [] => false

/-- Whether a name stands before another one in the natural order. -/
def naturallyBefore (s t : String) : Bool := naturallyBeforeFrom [] s.toList t.toList

end Interleaving.Text
