import Interleaving.Text.Numeral

/-!
# Durations

A duration is a number of nanoseconds. It is written in hours, minutes and seconds, or, below a
second, in the largest unit of which there is at least one, with as many digits after the point as
it takes.
-/

namespace Interleaving.Duration

/-- The whole part and the digits after the point of `n` over the `places`-th power of ten, without
zeros at the end. -/
def scaled (places n : Nat) : String :=
  let digits := Nat.repr (n % Nat.pow 10 places)
  let padded := List.replicate (places - digits.length) '0' ++ digits.toList
  let part := (padded.reverse.dropWhile (· = '0')).reverse
  Nat.repr (n / Nat.pow 10 places) ++
    (if n % Nat.pow 10 places = 0 then "" else "." ++ String.ofList part)

/-- A number of nanoseconds in words. -/
def ofNanoseconds (n : Nat) : String :=
  if n = 0 then "0s"
  else if n < 1000 then Nat.repr n ++ "ns"
  else if n < 1000000 then scaled 3 n ++ "µs"
  else if n < 1000000000 then scaled 6 n ++ "ms"
  else
    let seconds := n / 1000000000
    let minutes := seconds / 60
    (if minutes < 60 then "" else Nat.repr (minutes / 60) ++ "h") ++
      (if seconds < 60 then "" else Nat.repr (minutes % 60) ++ "m") ++
      scaled 9 (n % 60000000000) ++ "s"

/-- A duration in words. -/
def text (n : Int) : String :=
  if n < 0 then "-" ++ ofNanoseconds n.natAbs else ofNanoseconds n.natAbs

/-! ### Reading -/

/-- The nanoseconds of a unit. -/
def unit? (s : String) : Option Nat :=
  if s = "ns" then some 1
  else if s = "us" || s = "µs" || s = "μs" then some 1000
  else if s = "ms" then some 1000000
  else if s = "s" then some 1000000000
  else if s = "m" then some 60000000000
  else if s = "h" then some 3600000000000
  else none

/-- Whether a character can stand in the number before a unit. -/
def isNumeric (c : Char) : Bool := c = '.' || Text.isDigit c

/-- Reads one number with its unit, in nanoseconds, and gives what follows. -/
def piece? (cs : List Char) : Option (Nat × List Char) := do
  let whole := cs.takeWhile Text.isDigit
  let rest := cs.drop whole.length
  let (part, rest) := match rest with
    | '.' :: rest => (rest.takeWhile Text.isDigit, rest.dropWhile Text.isDigit)
    | rest => ([], rest)
  guard (!whole.isEmpty || !part.isEmpty)
  let name := rest.takeWhile fun c => !isNumeric c
  let unit ← unit? (String.ofList name)
  let value := (Text.natural? (whole ++ part)).getD 0
  return (value * unit / Nat.pow 10 part.length, rest.drop name.length)

/-- Reads numbers with their units, one after the other, up to the end. Fuel bounds their number. -/
def pieces? : Nat → List Char → Option Nat
  | _, [] => some 0
  | 0, _ => none
  | fuel + 1, cs => do
    let (n, rest) ← piece? cs
    return n + (← pieces? fuel rest)

/-- Reads a duration of no more than 64 bits. -/
def ofText? (s : String) : Option Int := do
  let (negative, cs) := match s.toList with
    | '-' :: cs => (true, cs)
    | '+' :: cs => (false, cs)
    | cs => (false, cs)
  if cs = ['0'] then return 0
  guard (!cs.isEmpty)
  let n ← pieces? cs.length cs
  let n : Int := if negative then -(n : Int) else n
  guard (Word.fits n)
  return n

end Interleaving.Duration
