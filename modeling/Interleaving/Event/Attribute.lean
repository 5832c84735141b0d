import Interleaving.Decimal.Double
import Interleaving.Dictionary
import Interleaving.Text.Numeral

/-!
# Attributes

Events and nodes carry named values besides their kind and location. A value is asked for by its
name and its type; a value of another type counts as absent.
-/

namespace Interleaving

/-- The value of an attribute. -/
inductive Attribute where
  | int (n : Int)
  /-- The number of a task, which is not the same as a plain integer. -/
  | task (n : Int)
  /-- A number of double precision, by its bits. -/
  | real (bits : UInt64)
  | bool (b : Bool)
  | text (s : String)
  | none
deriving DecidableEq

/-- The text of a value. -/
def Attribute.render : Attribute → String
  | .int n => Text.decimal n
  | .task n => Text.decimal n
  | .real bits => Decimal.doubleText bits
  | .bool true => "true"
  | .bool false => "false"
  | .text s => s
  | .none => "<nil>"

/-- Named attribute values. -/
abbrev Attributes := Dictionary Attribute

namespace Attributes

/-- No attributes. -/
def empty : Attributes := Dictionary.empty

/-- The truth value under a name. -/
def bool? (a : Attributes) (name : String) : Option Bool :=
  match a.get? name with
  | some (.bool b) => some b
  | _ => Option.none

/-- The plain integer under a name. -/
def int? (a : Attributes) (name : String) : Option Int :=
  match a.get? name with
  | some (.int n) => some n
  | _ => Option.none

/-- The task number under a name. -/
def task? (a : Attributes) (name : String) : Option Int :=
  match a.get? name with
  | some (.task n) => some n
  | _ => Option.none

/-- The text under a name. -/
def text? (a : Attributes) (name : String) : Option String :=
  match a.get? name with
  | some (.text s) => some s
  | _ => Option.none

end Attributes

end Interleaving
