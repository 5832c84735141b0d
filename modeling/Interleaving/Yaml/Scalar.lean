import Interleaving.Moment
import Interleaving.Text.Literal

/-!
# Plain scalars

What a scalar without quotes stands for: nothing, a truth value, a number, a moment, or else a text.
The first character tells which of these a scalar can be, so that most texts are recognised at once.

Writers need the converse, and they are careful: `Interleaving.Yaml.isPlainText` is false also of
scalars that some readers take for something else, the words for yes and no and numerals to base
sixty.
-/

namespace Interleaving.Yaml

/-- What a scalar stands for. -/
inductive Meaning where
  | null
  | bool (b : Bool)
  | int (n : Int)
  | real (x : Float)
  | moment (m : Moment)
  | text (s : String)

/-! ### Numbers -/

/-- A decimal number with a point or an exponent: its digits as a natural number, and the power of
ten that they are to be multiplied with. -/
structure DecimalParts where
  negative : Bool
  digits : Nat
  /-- How many digits there are, zeros at the front apart. -/
  size : Nat
  exponent : Int

/-- Digits with underscores between them: the digits, if there is one, and what follows. -/
def digitGroup (underscores : Bool) (cs : List Char) : List Char × List Char :=
  let group := cs.takeWhile fun c => Text.isDigit c || (underscores && c = '_')
  (group, cs.drop group.length)

/-- Reads an exponent, or nothing at the end. -/
def exponent? (underscores : Bool) : List Char → Option Int
  | [] => some 0
  | c :: cs => do
    guard (c = 'e' || c = 'E')
    let (negative, cs) := match cs with
      | '-' :: cs => (true, cs)
      | '+' :: cs => (false, cs)
      | cs => (false, cs)
    let (group, rest) := digitGroup underscores cs
    guard (rest.isEmpty && !group.isEmpty && Text.underscoresApart false group)
    let n ← Text.natural? (group.filter (· ≠ '_'))
    return if negative then -(n : Int) else n

/-- Reads a decimal number: digits, a point, digits, and an exponent, each of which may be missing
as long as there is a digit. Underscores, where they are allowed, stand between digits. -/
def decimalParts? (underscores : Bool) (cs : List Char) : Option DecimalParts := do
  let (negative, cs) := match cs with
    | '-' :: cs => (true, cs)
    | '+' :: cs => (false, cs)
    | cs => (false, cs)
  let (whole, rest) := digitGroup underscores cs
  let (part, rest) := match rest with
    | '.' :: rest => digitGroup underscores rest
    | rest => ([], rest)
  let digits := (whole ++ part).filter (· ≠ '_')
  guard (!digits.isEmpty && Text.underscoresApart false whole && Text.underscoresApart false part)
  let e ← exponent? underscores rest
  let n ← Text.natural? digits
  return { negative, digits := n, size := (digits.dropWhile (· = '0')).length,
           exponent := e - (part.filter (· ≠ '_')).length }

/-- The double that is nearest to a decimal number; none if the number is too large for a double. -/
def DecimalParts.toFloat? (d : DecimalParts) : Option Float :=
  let magnitude : Int := d.size + d.exponent
  let signed (x : Float) : Float := if d.negative then -x else x
  if d.digits = 0 || magnitude < -400 then some (signed 0)
  else if 400 < magnitude then none
  else
    let x := Float.ofScientific d.digits (d.exponent < 0) d.exponent.natAbs
    if x.isInf then none else some (signed x)

/-- Reads an integer with a sign of its own after the name of a base. -/
def prefixedInt? (cs : List Char) : Option Int := do
  let (base, cs) ← match cs with
    | '0' :: 'b' :: cs => some (2, cs)
    | '0' :: 'o' :: cs => some (8, cs)
    | _ => none
  let digits (cs : List Char) : Option Nat :=
    if cs.isEmpty then none else (Text.digitsIn base Text.greatestUnsigned 0 cs).toOption
  let n ← match cs with
    | '-' :: cs => (digits cs).map fun n => -(n : Int)
    | '+' :: cs => (digits cs).map Int.ofNat
    | _ => none
  guard (Word.fits n)
  return n

/-- Reads a scalar that starts like a number. Underscores between the digits are passed over. -/
def number? (s : String) : Option Meaning :=
  let cs := s.toList.filter (· ≠ '_')
  let t := String.ofList cs
  match Text.signedLiteral t, Text.unsignedLiteral t with
  | .ok n, _ => some (.int n)
  | .error _, .ok n => some (.int n.toNat)
  | .error _, .error _ =>
    match (decimalParts? false cs).bind DecimalParts.toFloat? with
    | some x => some (.real x)
    | none => (prefixedInt? cs).map .int

/-- The words for infinities and for what is no number. -/
def specialReal? (s : String) : Option Float :=
  if [".inf", ".Inf", ".INF", "+.inf", "+.Inf", "+.INF"].contains s then some (1.0 / 0.0)
  else if ["-.inf", "-.Inf", "-.INF"].contains s then some (-1.0 / 0.0)
  else if [".nan", ".NaN", ".NAN"].contains s then some (0.0 / 0.0)
  else none

/-! ### Meanings -/

/-- Reads a moment: four digits of a year come first. -/
def moment? (s : String) : Option Moment :=
  let year := s.toList.takeWhile Text.isDigit
  if year.length = 4 then Moment.ofCasualText? s else none

/-- What a plain scalar stands for. -/
def meaning (s : String) : Meaning :=
  if ["", "~", "null", "Null", "NULL"].contains s then .null
  else if ["true", "True", "TRUE"].contains s then .bool true
  else if ["false", "False", "FALSE"].contains s then .bool false
  else
    match specialReal? s with
    | some x => .real x
    | none =>
      match s.toList with
      | '.' :: _ =>
        match (decimalParts? true s.toList).bind DecimalParts.toFloat? with
        | some x => .real x
        | none => .text s
      | c :: _ =>
        if c = '+' || c = '-' || Text.isDigit c then
          match moment? s with
          | some m => .moment m
          | none => (number? s).getD (.text s)
        else .text s
      | [] => .null

/-- The words that some readers take for truth values. -/
def isOldTruthWord (s : String) : Bool :=
  ["y", "Y", "yes", "Yes", "YES", "on", "On", "ON", "n", "N", "no", "No", "NO", "off", "Off",
    "OFF"].contains s

/-- Whether the rest of a numeral to base sixty is well formed: parts after colons, below sixty, and
then perhaps a fraction. `seen` tells whether there was a part. Fuel bounds the number of parts. -/
def sixtyParts : Nat → Bool → List Char → Bool
  | fuel + 1, _, ':' :: cs =>
    let part := cs.takeWhile Text.isDigit
    (part.length = 1 || (part.length = 2 && part.head?.any (· ≤ '5'))) &&
      sixtyParts fuel true (cs.drop part.length)
  | _, seen, '.' :: cs => seen && cs.all fun c => Text.isDigit c || c = '_'
  | _, seen, [] => seen
  | _, _, _ => false

/-- Whether a scalar is a numeral to base sixty, such as a time of day. -/
def isSixtyNumeral (s : String) : Bool :=
  let cs := match s.toList with
    | '+' :: cs => cs
    | '-' :: cs => cs
    | cs => cs
  cs.head?.any Text.isDigit &&
    sixtyParts cs.length false (cs.dropWhile fun c => Text.isDigit c || c = '_')

/-- Whether every reader takes a plain scalar for a text. -/
def isPlainText (s : String) : Bool :=
  match meaning s with
  | .text _ => !isOldTruthWord s && !isSixtyNumeral s
  | _ => false

end Interleaving.Yaml
