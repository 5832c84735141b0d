import Interleaving.Decimal.Shortest
import Interleaving.Text.Numeral

/-!
# Numbers of a program

The numbers that a program computes with: binary floating point with 512 significant bits, two zeros
and two infinities. Every result is the exact one **rounded to the nearest** number, and of two that
are equally near to the one whose last bit is zero.

A finite number is `mantissa * 2 ^ exponent`; the mantissa has at most 512 bits and is odd unless
the number is zero, so equal numbers have equal parts. The text of a number has no exponent and the
fewest digits that lie within half a unit in the last of the 512 bits.
-/

namespace Interleaving

/-- A number of a program. -/
inductive Number where
  | finite (negative : Bool) (mantissa : Nat) (exponent : Int)
  | infinite (negative : Bool)
deriving DecidableEq

namespace Number

/-- The number of significant bits. -/
def precision : Nat := 512

/-- The number of binary digits of a natural number; zero has none. -/
def bitLength (m : Nat) : Nat := if m = 0 then 0 else Nat.log2 m + 1

/-! ### Rounding -/

/-- Takes factors of two out of a mantissa. -/
def stripTwos : Nat → Nat → Int → Nat × Int
  | 0, m, e => (m, e)
  | fuel + 1, m, e => if m % 2 = 0 then stripTwos fuel (m / 2) (e + 1) else (m, e)

/-- The finite number with this sign and value, in its unique form. -/
def normal (negative : Bool) (m : Nat) (e : Int) : Number :=
  if m = 0 then .finite negative 0 0
  else
    let (m, e) := stripTwos (Nat.log2 m) m e
    .finite negative m e

/-- The number nearest to `m * 2 ^ e`, or, when `inexact` holds, to a value that is greater by less
than `2 ^ e`. -/
def round (negative : Bool) (m : Nat) (e : Int) (inexact : Bool) : Number :=
  let extra := bitLength m - precision
  if extra = 0 then normal negative m e
  else
    let kept := m / Nat.pow 2 extra
    let rest := m % Nat.pow 2 extra
    let half := Nat.pow 2 (extra - 1)
    let up := half < rest || (rest = half && (inexact || kept % 2 = 1))
    normal negative (if up then kept + 1 else kept) (e + extra)

/-- The number nearest to the fraction `num / den * 2 ^ e`. -/
def ofFraction (negative : Bool) (num den : Nat) (e : Int) : Number :=
  -- enough bits that the quotient has more than the significant ones
  let shift := precision + 2 + bitLength den - bitLength num
  let scaled := num * Nat.pow 2 shift
  round negative (scaled / den) (e - shift) (scaled % den ≠ 0)

/-- Zero. -/
def zero : Number := .finite false 0 0

/-- The number of an integer. -/
def ofInt (n : Int) : Number := round (n < 0) n.natAbs 0 false

/-! ### Arithmetic -/

/-- Why an arithmetic operation has no result. -/
inductive Undefined where
  | sum
  | product
  | quotient
  | remainder
deriving DecidableEq

/-- The number with the other sign. -/
def negate : Number → Number
  | .finite negative m e => .finite (!negative) m e
  | .infinite negative => .infinite (!negative)

/-- The integer `m * 2 ^ (e - base)` with a sign, for a base not above the exponent. -/
def scaledTo (base : Int) (negative : Bool) (m : Nat) (e : Int) : Int :=
  let n : Int := (m * Nat.pow 2 (e - base).toNat : Nat)
  if negative then -n else n

/-- The sum. Opposite infinities have none. -/
def add : Number → Number → Except Undefined Number
  | .infinite a, .infinite b => if a = b then .ok (.infinite a) else .error .sum
  | .infinite a, .finite _ _ _ => .ok (.infinite a)
  | .finite _ _ _, .infinite b => .ok (.infinite b)
  | .finite a m e, .finite b n f =>
    if m = 0 && n = 0 then .ok (.finite (a && b) 0 0)
    else
      let base := min e f
      let sum := scaledTo base a m e + scaledTo base b n f
      .ok (round (sum < 0) sum.natAbs base false)

/-- The difference. -/
def sub (a b : Number) : Except Undefined Number := a.add b.negate

/-- The product. Zero and an infinity have none. -/
def mul : Number → Number → Except Undefined Number
  | .infinite a, .infinite b => .ok (.infinite (a != b))
  | .infinite a, .finite b n _ => if n = 0 then .error .product else .ok (.infinite (a != b))
  | .finite a m _, .infinite b => if m = 0 then .error .product else .ok (.infinite (a != b))
  | .finite a m e, .finite b n f => .ok (round (a != b) (m * n) (e + f) false)

/-- The quotient. Two zeros and two infinities have none; anything else by zero is infinite. -/
def div : Number → Number → Except Undefined Number
  | .infinite _, .infinite _ => .error .quotient
  | .infinite a, .finite b _ _ => .ok (.infinite (a != b))
  | .finite a _ _, .infinite b => .ok (.finite (a != b) 0 0)
  | .finite a m e, .finite b n f =>
    if n = 0 then (if m = 0 then .error .quotient else .ok (.infinite (a != b)))
    else .ok (ofFraction (a != b) m n (e - f))

/-- The integer that a number rounds to toward zero; an infinity counts as zero. -/
def truncate : Number → Int
  | .infinite _ => 0
  | .finite negative m e =>
    let n : Int := (if 0 ≤ e then m * Nat.pow 2 e.toNat else m / Nat.pow 2 (-e).toNat : Nat)
    if negative then -n else n

/-- What is left of a number after taking away the greatest multiple of the other that is not beyond
it. The remainder by zero is the number itself. -/
def mod (a b : Number) : Except Undefined Number :=
  match b with
  | .finite _ 0 _ => .ok a
  | _ => do
    let quotient ← (a.div b).mapError fun _ => .remainder
    let multiple ← (b.mul (ofInt quotient.truncate)).mapError fun _ => .remainder
    (a.sub multiple).mapError fun _ => .remainder

/-! ### Order -/

/-- The order of numbers; the two zeros are equal. -/
def compare : Number → Number → Ordering
  | .infinite a, .infinite b => if a = b then .eq else if a then .lt else .gt
  | .infinite a, .finite _ _ _ => if a then .lt else .gt
  | .finite _ _ _, .infinite b => if b then .gt else .lt
  | .finite a m e, .finite b n f =>
    let base := min e f
    Ord.compare (scaledTo base a m e) (scaledTo base b n f)

/-- Whether a number is zero. -/
def isZero : Number → Bool
  | .finite _ m _ => m = 0
  | .infinite _ => false

/-- The word of 64 bits that a number equals. -/
def word? : Number → Option Int
  | .infinite _ => none
  | .finite negative m e =>
    -- the mantissa is odd, so a whole number has no negative exponent
    if m = 0 then some 0
    else if e < 0 || 64 < e then none
    else some (scaledTo 0 negative m e) |>.filter Word.fits

/-! ### Text -/

/-- The interval of the values within half a unit in the last significant place of the positive
number `m * 2 ^ e`. -/
def interval (m : Nat) (e : Int) : Decimal.Interval :=
  let shift := precision - bitLength m
  let full := m * Nat.pow 2 shift
  let e := e - shift
  let value := 2 * full
  let (scaleUp, den) := if 0 ≤ e then (Nat.pow 2 e.toNat, 2) else (1, 2 * Nat.pow 2 (-e).toNat)
  { lower := (value - 1) * scaleUp, value := value * scaleUp, upper := (value + 1) * scaleUp, den,
    closed := full % 2 = 0 }

/-- The text of a number in the given notation for positive decimals. -/
def textBy (notate : Decimal.Digits → String) : Number → String
  | .infinite negative => if negative then "-Inf" else "+Inf"
  | .finite negative m e =>
    let magnitude := if m = 0 then "0" else notate (Decimal.shortest (interval m e))
    if negative then "-" ++ magnitude else magnitude

/-- The text of a number, without an exponent. -/
def text : Number → String := textBy Decimal.Digits.positional

/-! ### Reading -/

/-- The digits up to the first other character, and the rest. -/
def takeDigits (cs : List Char) : List Char × List Char :=
  (cs.takeWhile Text.isDigit, cs.dropWhile Text.isDigit)

/-- Reads an exponent: whether its base is two, its value. Nothing at all is exponent zero. -/
def exponent? : List Char → Option (Bool × Int)
  | [] => some (false, 0)
  | c :: cs =>
    if c = 'e' || c = 'E' then (Text.integer? cs).map (false, ·)
    else if c = 'p' || c = 'P' then (Text.integer? cs).map (true, ·)
    else none

/-- The number nearest to `digits * 10 ^ exponent`. -/
def ofDecimal (negative : Bool) (digits : Nat) (exponent : Int) : Number :=
  if digits = 0 then .finite negative 0 0
  else if 0 ≤ exponent then
    round negative (digits * Nat.pow 5 exponent.toNat) exponent false
  else ofFraction negative digits (Nat.pow 5 (-exponent).toNat) exponent

/-- The greatest exponent that a decimal may have. -/
def exponentBound : Nat := 0x80000000

/-- Reads a decimal without a sign: digits, a point among, before or after them, and an exponent. -/
def unsigned? (negative : Bool) (cs : List Char) : Option Number :=
  let (whole, rest) := takeDigits cs
  let (fraction, rest) := match rest with
    | '.' :: more => takeDigits more
    | _ => ([], rest)
  if whole.isEmpty && fraction.isEmpty then none
  else do
    let digits ← Text.natural? (whole ++ fraction)
    let (binary, exponent) ← exponent? rest
    if exponentBound ≤ exponent.natAbs then none
    else if binary then
      match ofDecimal negative digits (-fraction.length) with
      | .finite s m e => some (normal s m (e + exponent))
      | other => some other
    else some (ofDecimal negative digits (exponent - fraction.length))

/-- Reads a decimal after a sign, or the word for infinity. -/
def magnitude? (negative : Bool) (cs : List Char) : Option Number :=
  if cs = ['I', 'n', 'f'] || cs = ['i', 'n', 'f'] then some (.infinite negative)
  else unsigned? negative cs

/-- Reads a number. -/
def ofText? : List Char → Option Number
  | '+' :: cs => magnitude? false cs
  | '-' :: cs => magnitude? true cs
  | cs => magnitude? false cs

end Number

end Interleaving
