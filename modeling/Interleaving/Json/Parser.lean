import Interleaving.Json.Basic

/-!
# Reading JSON

`Interleaving.Json.parse?` reads one JSON document and refuses anything after it. The grammar is the
strict one: no comments, no trailing commas, no leading zeros, no control character inside a text.
An escaped half of a surrogate pair that stands alone reads as the replacement character.

The reader is a recursive descent over the characters. Every call of `readValue` uses up one unit of
fuel, and a document never needs more units than it has characters, so the fuel is not part of the
interface.
-/

namespace Interleaving.Json

/-- The characters that may stand between tokens. -/
def isSpace (c : Char) : Bool := c = ' ' || c = '\t' || c = '\n' || c = '\r'

/-- The characters after the white space in front. -/
def skip (cs : List Char) : List Char := cs.dropWhile isSpace

/-- The value of a digit in base sixteen. -/
def hexValue? (c : Char) : Option Nat :=
  if '0' ≤ c && c ≤ '9' then some (c.toNat - 48)
  else if 'a' ≤ c && c ≤ 'f' then some (c.toNat - 87)
  else if 'A' ≤ c && c ≤ 'F' then some (c.toNat - 55)
  else none

/-- Reads four digits in base sixteen. -/
def readUnit? : List Char → Option (Nat × List Char)
  | a :: b :: c :: d :: rest => do
    let a ← hexValue? a
    let b ← hexValue? b
    let c ← hexValue? c
    let d ← hexValue? d
    some (((a * 16 + b) * 16 + c) * 16 + d, rest)
  | _ => none

/-- What stands for a code that is no character. -/
def replacement : Char := Char.ofNat 0xfffd

/-- The character of one code unit or of a surrogate pair, with what follows it. The units of a pair
are both escaped; a half on its own becomes the replacement character. -/
def readEscaped? (cs : List Char) : Option (Char × List Char) :=
  (readUnit? cs).map fun (unit, rest) =>
    if 0xd800 ≤ unit && unit < 0xdc00 then
      match rest with
      | '\\' :: 'u' :: more =>
        match readUnit? more with
        | some (low, rest') =>
          if 0xdc00 ≤ low && low < 0xe000 then
            (Char.ofNat (0x10000 + (unit - 0xd800) * 0x400 + (low - 0xdc00)), rest')
          else (replacement, rest)
        | none => (replacement, rest)
      | _ => (replacement, rest)
    else if 0xdc00 ≤ unit && unit < 0xe000 then (replacement, rest)
    else (Char.ofNat unit, rest)

/-- Reads the rest of a text after its opening quote; `read` holds the characters before, last one
first. Each step takes at least one character. -/
def readTextFrom? : Nat → List Char → List Char → Option (String × List Char)
  | 0, _, _ => none
  | _ + 1, _, [] => none
  | fuel + 1, read, c :: cs =>
    if c = '"' then some (String.ofList read.reverse, cs)
    else if c = '\\' then
      match cs with
      | '"' :: rest => readTextFrom? fuel ('"' :: read) rest
      | '\\' :: rest => readTextFrom? fuel ('\\' :: read) rest
      | '/' :: rest => readTextFrom? fuel ('/' :: read) rest
      | 'b' :: rest => readTextFrom? fuel (Char.ofNat 8 :: read) rest
      | 'f' :: rest => readTextFrom? fuel (Char.ofNat 12 :: read) rest
      | 'n' :: rest => readTextFrom? fuel ('\n' :: read) rest
      | 'r' :: rest => readTextFrom? fuel ('\r' :: read) rest
      | 't' :: rest => readTextFrom? fuel ('\t' :: read) rest
      | 'u' :: rest =>
        match readEscaped? rest with
        | some (d, rest') => readTextFrom? fuel (d :: read) rest'
        | none => none
      | _ => none
    else if c.toNat < 0x20 then none
    else readTextFrom? fuel (c :: read) cs

/-- Reads the rest of a text after its opening quote. -/
def readText? (cs : List Char) : Option (String × List Char) :=
  readTextFrom? (cs.length + 1) [] cs

/-- Splits the digits off the front. -/
def spanDigits (cs : List Char) : List Char × List Char := cs.span Text.isDigit

/-- Reads the digits of a number before its point: a zero, or digits that start with another one. -/
def readWhole? : List Char → Option (List Char × List Char)
  | '0' :: cs => some (['0'], cs)
  | cs =>
    match spanDigits cs with
    | ([], _) => none
    | (ds, rest) => some (ds, rest)

/-- Reads the part of a number from its point on, if it has one. -/
def readFraction? : List Char → Option (List Char × List Char)
  | '.' :: cs =>
    match spanDigits cs with
    | ([], _) => none
    | (ds, rest) => some ('.' :: ds, rest)
  | cs => some ([], cs)

/-- The sign of an exponent, if it has one. -/
def spanSign : List Char → List Char × List Char
  | '+' :: cs => (['+'], cs)
  | '-' :: cs => (['-'], cs)
  | cs => ([], cs)

/-- Reads the exponent of a number, if it has one. -/
def readExponent? : List Char → Option (List Char × List Char)
  | c :: cs =>
    if c = 'e' || c = 'E' then
      let (sign, cs') := spanSign cs
      match spanDigits cs' with
      | ([], _) => none
      | (ds, rest) => some (c :: sign ++ ds, rest)
    else some ([], c :: cs)
  | [] => some ([], [])

/-- Reads a number without its sign. -/
def readMagnitude? (cs : List Char) : Option (List Char × List Char) := do
  let (whole, cs) ← readWhole? cs
  let (fraction, cs) ← readFraction? cs
  let (exponent, cs) ← readExponent? cs
  some (whole ++ fraction ++ exponent, cs)

/-- Reads the literal of a number. -/
def readNumber? : List Char → Option (String × List Char)
  | '-' :: cs => (readMagnitude? cs).map fun (ds, rest) => (String.ofList ('-' :: ds), rest)
  | cs => (readMagnitude? cs).map fun (ds, rest) => (String.ofList ds, rest)

/-- The deepest nesting of arrays and objects a document may have. -/
def maxDepth : Nat := 10000

mutual

/-- Reads a value at a nesting of `depth`; white space in front has been skipped. -/
def readValue? : Nat → Nat → List Char → Option (Json × List Char)
  | 0, _, _ => none
  | fuel + 1, depth, cs =>
    match cs with
    | 'n' :: 'u' :: 'l' :: 'l' :: rest => some (.null, rest)
    | 't' :: 'r' :: 'u' :: 'e' :: rest => some (.bool true, rest)
    | 'f' :: 'a' :: 'l' :: 's' :: 'e' :: rest => some (.bool false, rest)
    | '"' :: rest => (readText? rest).map fun (s, rest) => (.text s, rest)
    | '[' :: rest =>
      if depth ≥ maxDepth then none
      else
        match skip rest with
        | ']' :: rest => some (.array [], rest)
        | rest => readItems? fuel (depth + 1) [] rest
    | '\x7b' :: rest =>
      if depth ≥ maxDepth then none
      else
        match skip rest with
        | '\x7d' :: rest => some (.object [], rest)
        | rest => readMembers? fuel (depth + 1) [] rest
    | cs => (readNumber? cs).map fun (literal, rest) => (.number literal, rest)

/-- Reads the items of an array from one of them on; `read` holds the items before, last one
first. -/
def readItems? : Nat → Nat → List Json → List Char → Option (Json × List Char)
  | 0, _, _, _ => none
  | fuel + 1, depth, read, cs =>
    match readValue? fuel depth cs with
    | none => none
    | some (v, rest) =>
      match skip rest with
      | ',' :: rest => readItems? fuel depth (v :: read) (skip rest)
      | ']' :: rest => some (.array (v :: read).reverse, rest)
      | _ => none

/-- Reads the members of an object from one of them on; `read` holds the members before, last one
first. -/
def readMembers? : Nat → Nat → List (String × Json) → List Char → Option (Json × List Char)
  | 0, _, _, _ => none
  | fuel + 1, depth, read, cs =>
    match cs with
    | '"' :: rest =>
      match readText? rest with
      | none => none
      | some (name, rest) =>
        match skip rest with
        | ':' :: rest =>
          match readValue? fuel depth (skip rest) with
          | none => none
          | some (v, rest) =>
            match skip rest with
            | ',' :: rest => readMembers? fuel depth ((name, v) :: read) (skip rest)
            | '\x7d' :: rest => some (.object ((name, v) :: read).reverse, rest)
            | _ => none
        | _ => none
    | _ => none

end

/-- Reads a document: one value between white space. -/
def parse? (s : String) : Option Json :=
  let cs := skip s.toList
  match readValue? (2 * cs.length + 2) 0 cs with
  | some (v, rest) => if (skip rest).isEmpty then some v else none
  | none => none

end Interleaving.Json
