import Interleaving.Decimal.Shortest

/-!
# Double precision numbers

Writing a binary number of 53 significant bits from its 64 bits: sign, exponent of eleven bits and
fraction of 52 bits. The text has the fewest digits that read back as the same number.
-/

namespace Interleaving.Decimal

/-- The bit of a mantissa that is not stored, `2 ^ 52`. -/
def hiddenBit : Nat := 0x10000000000000

/-- The interval of the rationals that round to the positive number with this exponent field and
fraction field. The gap below a power of two is half the gap above it. -/
def doubleInterval (exponent fraction : Nat) : Interval :=
  let mantissa := if exponent = 0 then fraction else fraction + hiddenBit
  let e : Int := (if exponent = 0 then 1 else exponent : Nat) - 1075
  let narrow := fraction = 0 && 1 < exponent
  -- quarters of the last place, so that every end is a natural number
  let value := 4 * mantissa
  let lower := if narrow then value - 1 else value - 2
  let upper := value + 2
  let (scaleUp, den) := if 0 ≤ e then (Nat.pow 2 e.toNat, 4) else (1, 4 * Nat.pow 2 (-e).toNat)
  { lower := lower * scaleUp, value := value * scaleUp, upper := upper * scaleUp, den,
    closed := mantissa % 2 = 0 }

/-- The text of the number with these bits. -/
def doubleText (bits : UInt64) : String :=
  let n := bits.toNat
  let negative := n / 0x8000000000000000 = 1
  let exponent := n / hiddenBit % 2048
  let fraction := n % hiddenBit
  if exponent = 2047 then
    if fraction ≠ 0 then "NaN" else if negative then "-Inf" else "+Inf"
  else
    let magnitude :=
      if exponent = 0 && fraction = 0 then "0"
      else (shortest (doubleInterval exponent fraction)).general
    if negative then "-" ++ magnitude else magnitude

end Interleaving.Decimal
