import Interleaving.Word

/-!
# Decimal numerals

Reading and writing integers in base ten. `Interleaving.Text.decimal?` reads a numeral with an
optional sign and any number of leading zeros, and refuses what is not a word of 64 bits;
`Interleaving.Text.decimal` writes the numeral without a leading zero.
-/

namespace Interleaving.Text

/-- The value of a decimal digit. -/
def digit? (c : Char) : Option Nat :=
  if '0' ≤ c && c ≤ '9' then some (c.toNat - 48) else none

/-- Whether the character is a decimal digit. -/
def isDigit (c : Char) : Bool := '0' ≤ c && c ≤ '9'

/-- Reads the digits after those that had the value `acc`. -/
def digitsFrom? (acc : Nat) : List Char → Option Nat
  | [] => some acc
  | c :: cs => (digit? c).bind fun d => digitsFrom? (10 * acc + d) cs

/-- Reads a numeral of one digit or more. -/
def natural? (cs : List Char) : Option Nat :=
  if cs.isEmpty then none else digitsFrom? 0 cs

/-- Reads an integer: a numeral, after a sign or without one. -/
def integer? : List Char → Option Int
  | '+' :: cs => (natural? cs).map Int.ofNat
  | '-' :: cs => (natural? cs).map fun n => -(n : Int)
  | cs => (natural? cs).map Int.ofNat

/-- Reads an integer that is a word of 64 bits. -/
def decimal? (cs : List Char) : Option Int := (integer? cs).filter Word.fits

/-- The numeral of an integer. -/
def decimal (n : Int) : String :=
  if n < 0 then "-" ++ Nat.repr n.natAbs else Nat.repr n.natAbs

end Interleaving.Text
