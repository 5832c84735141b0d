/-!
# Shortest decimals

The decimal with the fewest digits in an interval of rational numbers, and among several of that
length the one nearest to a given value. This is how a binary number is written so that reading the
text gives the number back: the interval holds the rationals that round to it.

The numbers are fractions of natural numbers with one common denominator. For a length of one digit,
two digits and so on, `Interleaving.Decimal.shortest` tests the two neighbours of the value among
the decimals of that length; the first length with a neighbour in the interval wins. Should the fuel
run out, the neighbour below the value is taken.
-/

namespace Interleaving.Decimal

/-- A positive decimal: the value is `0.digits * 10 ^ point`, the first digit is not zero. -/
structure Digits where
  digits : List Char
  point : Int
deriving DecidableEq

/-- An interval around a value, all with the denominator `den`; `closed` says whether the ends
belong to it. -/
structure Interval where
  lower : Nat
  value : Nat
  upper : Nat
  den : Nat
  closed : Bool

/-- How many digits the positive fraction `num / den` has before its point, counted up from a first
guess: the least `k` not below the guess with `num / den < 10 ^ k`. -/
def pointUp (num den : Nat) : Nat → Nat → Nat
  | 0, k => k
  | fuel + 1, k => if num < den * Nat.pow 10 k then k else pointUp num den fuel (k + 1)

/-- How many zeros follow the point of the fraction `num / den` below one: the greatest `k` with
`num / den < 10 ^ (-k)`, counted up. -/
def zerosUp (num den : Nat) : Nat → Nat → Nat
  | 0, k => k
  | fuel + 1, k => if num * Nat.pow 10 (k + 1) < den then zerosUp num den fuel (k + 1) else k

/-- The position of the point of a positive fraction: `10 ^ (k - 1) ≤ num / den < 10 ^ k`. -/
def pointOf (num den : Nat) : Int :=
  if den ≤ num then pointUp num den (Nat.log2 num + 1) 0
  else -(zerosUp num den (Nat.log2 den + 1) 0 : Int)

/-- The fraction `num / den` times `10 ^ e`, as a numerator and a denominator. -/
def scale (num den : Nat) (e : Int) : Nat × Nat :=
  if 0 ≤ e then (num * Nat.pow 10 e.toNat, den) else (num, den * Nat.pow 10 (-e).toNat)

/-- Whether the decimal `d * 10 ^ (-e)` lies in the interval. -/
def Interval.holds (i : Interval) (d : Nat) (e : Int) : Bool :=
  let (lo, loDen) := scale i.lower i.den e
  let (hi, hiDen) := scale i.upper i.den e
  if i.closed then lo ≤ d * loDen && d * hiDen ≤ hi else lo < d * loDen && d * hiDen < hi

/-- The neighbour of the value with `n` digits that lies in the interval and is nearest to the
value; the even one of two at the same distance. -/
def Interval.neighbour? (i : Interval) (e : Int) : Option Nat :=
  let (num, den) := scale i.value i.den e
  let down := num / den
  let rest := num % den
  match i.holds down e, i.holds (down + 1) e with
  | true, true =>
    if 2 * rest < den then some down
    else if den < 2 * rest then some (down + 1)
    else if down % 2 = 0 then some down else some (down + 1)
  | true, false => some down
  | false, true => some (down + 1)
  | false, false => none

/-- The digits without the zeros they end with. -/
def dropZeros (ds : List Char) : List Char := (ds.reverse.dropWhile (· == '0')).reverse

/-- The decimal `d * 10 ^ (-e)` as digits and a point. -/
def Digits.ofScaled (d : Nat) (e : Int) : Digits :=
  let ds := Nat.toDigits 10 d
  ⟨dropZeros ds, (ds.length : Int) - e⟩

/-- Tries `n` digits, `n + 1` digits and so on. -/
def shortestFrom (i : Interval) (point : Int) : Nat → Nat → Digits
  | 0, n =>
    let e := (n : Int) - point
    let (num, den) := scale i.value i.den e
    Digits.ofScaled (num / den) e
  | fuel + 1, n =>
    let e := (n : Int) - point
    match i.neighbour? e with
    | some d => Digits.ofScaled d e
    | none => shortestFrom i point fuel (n + 1)

/-- The decimal with the fewest digits in the interval. -/
def shortest (i : Interval) : Digits :=
  shortestFrom i (pointOf i.value i.den) (Nat.log2 i.value + Nat.log2 i.den + 2) 1

/-- The decimal written out with its point and without an exponent. -/
def Digits.positional (d : Digits) : String :=
  let n := d.digits.length
  if d.point ≤ 0 then
    String.ofList ('0' :: '.' :: List.replicate (-d.point).toNat '0' ++ d.digits)
  else
    let k := d.point.toNat
    if n ≤ k then String.ofList (d.digits ++ List.replicate (k - n) '0')
    else String.ofList (d.digits.take k ++ '.' :: d.digits.drop k)

/-- The decimal with one digit before the point and an exponent of two digits or more. -/
def Digits.scientific (d : Digits) : String :=
  let e := d.point - 1
  let magnitude := Nat.toDigits 10 e.natAbs
  let padded := if magnitude.length < 2 then '0' :: magnitude else magnitude
  let fraction := match d.digits.drop 1 with
    | [] => []
    | ds => '.' :: ds
  String.ofList (d.digits.take 1 ++ fraction ++ 'e' :: (if e < 0 then '-' else '+') :: padded)

/-- The decimal in whichever form is shorter to read: with an exponent from a million up and below
one ten-thousandth. -/
def Digits.general (d : Digits) : String :=
  if d.point - 1 < -4 || 6 ≤ d.point - 1 then d.scientific else d.positional

end Interleaving.Decimal
