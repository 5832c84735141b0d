import Interleaving.Dictionary
import Interleaving.Program.Number
import Interleaving.Text.Quoted

/-!
# Values of a program

What variables and registers hold and what expressions compute: numbers, truth values, texts,
nothing at all, tuples and objects. Operators ask for a value of a certain shape and **convert**
what they get: a text that spells a number is a number, and a number or truth value has a text;
numbers and truth values never turn into each other.
-/

namespace Interleaving

/-- A value of a program. Objects hold their members in the order of the names. -/
inductive Value where
  | number (n : Number)
  | bool (b : Bool)
  | text (s : String)
  | null
  | tuple (items : List Value)
  | object (members : List (String × Value))

/-- What sort of value a value is. -/
inductive Shape where
  | number
  | bool
  | text
  | dynamic
  | tuple
  | object
deriving DecidableEq

/-- The word for a shape in messages. -/
def Shape.name : Shape → String
  | .number => "number"
  | .bool => "bool"
  | .text => "string"
  | .dynamic => "dynamic"
  | .tuple => "tuple"
  | .object => "object"

namespace Value

instance : Inhabited Value := ⟨.null⟩

/-- The shape of a value. -/
def shape : Value → Shape
  | .number _ => .number
  | .bool _ => .bool
  | .text _ => .text
  | .null => .dynamic
  | .tuple _ => .tuple
  | .object _ => .object

/-- Zero, which registers and undeclared initial values hold. -/
def zero : Value := .number .zero

/-! ### Equality -/

mutual

/-- Whether two values are equal. Values of different shapes never are, and the two zeros are. -/
def equal : Value → Value → Bool
  | .number a, .number b => a.compare b == .eq
  | .bool a, .bool b => a == b
  | .text a, .text b => a == b
  | .null, .null => true
  | .tuple as, .tuple bs => equalItems as bs
  | .object as, .object bs => equalMembers as bs
  | _, _ => false

/-- Whether two lists of values are equal, one by one. -/
def equalItems : List Value → List Value → Bool
  | [], [] => true
  | a :: as, b :: bs => equal a b && equalItems as bs
  | _, _ => false

/-- Whether two lists of named values are equal, one by one. -/
def equalMembers : List (String × Value) → List (String × Value) → Bool
  | [], [] => true
  | (m, a) :: as, (n, b) :: bs => m == n && equal a b && equalMembers as bs
  | _, _ => false

end

/-! ### Conversion -/

/-- Why a value cannot be converted. -/
inductive Mismatch where
  /-- A text that spells no number. -/
  | notNumber
  /-- A text that spells no truth value. -/
  | notBool (s : String)
  /-- A value whose shape is never converted to the wanted one. -/
  | shape (wanted given : Shape)
deriving DecidableEq

/-- The message about a value that cannot be converted. -/
def Mismatch.message : Mismatch → String
  | .notNumber => "a number is required"
  | .notBool s =>
    let lower := String.ofList (s.toList.map Char.toLower)
    if lower = "true" || lower = "false" then
      "a bool is required; to convert from string, use lowercase " ++ Text.quote lower
    else "a bool is required"
  | .shape wanted given => wanted.name ++ " required, but have " ++ given.name

/-- The number that a value converts to; nothing stays nothing. -/
def toNumber? : Value → Except Mismatch (Option Number)
  | .number n => .ok (some n)
  | .text s =>
    match Number.ofText? s.toList with
    | some n => .ok (some n)
    | none => .error .notNumber
  | .null => .ok none
  | v => .error (.shape .number v.shape)

/-- The truth value that a value converts to; nothing stays nothing. -/
def toBool? : Value → Except Mismatch (Option Bool)
  | .bool b => .ok (some b)
  | .text s =>
    if s = "true" || s = "1" then .ok (some true)
    else if s = "false" || s = "0" then .ok (some false)
    else .error (.notBool s)
  | .null => .ok none
  | v => .error (.shape .bool v.shape)

/-- The word for a truth value. -/
def boolText (b : Bool) : String := if b then "true" else "false"

/-- The text that a value converts to; nothing stays nothing. -/
def toText? : Value → Except Mismatch (Option String)
  | .text s => .ok (some s)
  | .number n => .ok (some n.text)
  | .bool b => .ok (some (boolText b))
  | .null => .ok none
  | v => .error (.shape .text v.shape)

/-! ### Words -/

/-- Why a value is not a word of 64 bits. -/
inductive WordError where
  | notNumber
  | null
  | outOfRange
deriving DecidableEq

/-- The message about a value that is not a word. -/
def WordError.message : WordError → String
  | .notNumber => "number value is required"
  | .null => "null value is not allowed"
  | .outOfRange =>
    "value must be a whole number, between " ++ Text.decimal Word.least ++ " and " ++
      Text.decimal Word.greatest

/-- The word of 64 bits that a number is. -/
def word (v : Value) : Except WordError Int :=
  match v with
  | .number n =>
    match n.word? with
    | some w => .ok w
    | none => .error .outOfRange
  | _ => .error .notNumber

/-! ### Text -/

mutual

/-- A value as a term that builds it. -/
def describe : Value → String
  | .number n =>
    match n with
    | .infinite negative => if negative then "cty.NegativeInfinity" else "cty.PositiveInfinity"
    | .finite _ m e =>
      if 0 ≤ e || m = 0 then "cty.NumberIntVal(" ++ n.textBy Decimal.Digits.general ++ ")"
      else if Number.bitLength m ≤ 53 then
        "cty.NumberFloatVal(" ++ n.textBy Decimal.Digits.general ++ ")"
      else "cty.MustParseNumberVal(" ++ Text.quote n.text ++ ")"
  | .bool b => if b then "cty.True" else "cty.False"
  | .text s => "cty.StringVal(" ++ Text.quote s ++ ")"
  | .null => "cty.NullVal(cty.DynamicPseudoType)"
  | .tuple [] => "cty.EmptyTupleVal"
  | .tuple (v :: vs) => "cty.TupleVal([]cty.Value\x7b" ++ describe v ++ describeItems vs ++ "\x7d)"
  | .object [] => "cty.EmptyObjectVal"
  | .object ((name, v) :: ms) =>
    "cty.ObjectVal(map[string]cty.Value\x7b" ++ Text.quote name ++ ":" ++ describe v ++
      describeMembers ms ++ "\x7d)"

/-- The terms of further items of a tuple. -/
def describeItems : List Value → String
  | [] => ""
  | v :: vs => ", " ++ describe v ++ describeItems vs

/-- The terms of further members of an object. -/
def describeMembers : List (String × Value) → String
  | [] => ""
  | (name, v) :: ms => ", " ++ Text.quote name ++ ":" ++ describe v ++ describeMembers ms

end

/-- The text of a value in a report: numbers and truth values as they are written, other values as
terms. -/
def render : Value → String
  | .number n => n.text
  | .bool b => boolText b
  | v => v.describe

end Value

end Interleaving
