import Interleaving.Text.Numeral

/-!
# Integer literals

Integers as they are written in programs and in settings: in base ten, or in another base that the
first characters name (`0x`, `0o`, `0b`, or a zero alone for base eight), with underscores between
the digits where they help the eye.

A literal is read from its first digit to its last, and the reader stops at the first character at
which it is known to be wrong. So a numeral that has grown too large is reported as such even if it
would have turned out to be no numeral at all; `Interleaving.Text.digitsIn` keeps this order.
-/

namespace Interleaving.Text

/-- Why a text is not a literal of the wanted sort. -/
inductive LiteralFault where
  /-- The text is no literal. -/
  | malformed
  /-- The literal stands for a number that has no place in the wanted sort. -/
  | outOfRange
deriving DecidableEq

/-- The words for a fault. -/
def LiteralFault.message : LiteralFault → String
  | .malformed => "parse error"
  | .outOfRange => "value out of range"

/-- The value of a digit: the letters of either case follow the nine. -/
def letterDigit? (c : Char) : Option Nat :=
  if isDigit c then some (c.toNat - 48)
  else if 'a' ≤ c && c ≤ 'z' then some (c.toNat - 87)
  else if 'A' ≤ c && c ≤ 'Z' then some (c.toNat - 55)
  else none

/-- Reads the digits of a base after those that had the value `acc`, up to a greatest value.
Underscores are passed over. -/
def digitsIn (base greatest : Nat) (acc : Nat) : List Char → Except LiteralFault Nat
  | [] => .ok acc
  | '_' :: cs => digitsIn base greatest acc cs
  | c :: cs =>
    match letterDigit? c with
    | none => .error .malformed
    | some d =>
      if base ≤ d then .error .malformed
      else if greatest < base * acc + d then .error .outOfRange
      else digitsIn base greatest (base * acc + d) cs

/-- Whether every underscore stands between two digits. `afterDigit` tells whether a digit, or the
name of a base, came before. -/
def underscoresApart (afterDigit : Bool) : List Char → Bool
  | [] => true
  | '_' :: cs => afterDigit && !cs.isEmpty && underscoresApart false cs
  | _ :: cs => underscoresApart true cs

/-- The base that the first characters name, and the digits. A name of two characters counts only
when something follows it. -/
def baseOf : List Char → Nat × List Char
  | '0' :: b :: c :: cs =>
    if b = 'x' || b = 'X' then (16, c :: cs)
    else if b = 'o' || b = 'O' then (8, c :: cs)
    else if b = 'b' || b = 'B' then (2, c :: cs)
    else (8, b :: c :: cs)
  | '0' :: cs => (8, cs)
  | cs => (10, cs)

/-- Reads a literal without a sign, up to a greatest value. -/
def naturalLiteral (greatest : Nat) (cs : List Char) : Except LiteralFault Nat :=
  if cs.isEmpty then .error .malformed
  else do
    let (base, digits) := baseOf cs
    let n ← digitsIn base greatest 0 digits
    if underscoresApart (base ≠ 10) digits then .ok n else .error .malformed

/-- The greatest unsigned word of 64 bits. -/
def greatestUnsigned : Nat := 0xffffffffffffffff

/-- Reads a literal for an unsigned word of 64 bits. -/
def unsignedLiteral (s : String) : Except LiteralFault UInt64 :=
  (naturalLiteral greatestUnsigned s.toList).map UInt64.ofNat

/-- Reads a literal for a signed word of 64 bits. -/
def signedLiteral (s : String) : Except LiteralFault Int :=
  let inRange (n : Int) : Except LiteralFault Int :=
    if Word.fits n then .ok n else .error .outOfRange
  match s.toList with
  | '-' :: cs => do inRange (-(← naturalLiteral greatestUnsigned cs : Nat))
  | '+' :: cs => do inRange (← naturalLiteral greatestUnsigned cs : Nat)
  | cs => do inRange (← naturalLiteral greatestUnsigned cs : Nat)

/-- Reads a truth value, in one of the spellings that settings allow. -/
def truth? (s : String) : Option Bool :=
  if ["1", "t", "T", "true", "TRUE", "True"].contains s then some true
  else if ["0", "f", "F", "false", "FALSE", "False"].contains s then some false
  else none

end Interleaving.Text
