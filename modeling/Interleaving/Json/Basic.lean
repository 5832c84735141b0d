import Interleaving.Text.Numeral

/-!
# JSON values

A JSON document as a value. Objects keep their members in the order of the text, repeated names
included, and numbers keep the literal they were written with, so that a reader of a document can
apply its own rules to both.
-/

namespace Interleaving

/-- A JSON value. -/
inductive Json where
  | null
  | bool (b : Bool)
  | number (literal : String)
  | text (s : String)
  | array (items : List Json)
  | object (members : List (String × Json))

namespace Json

instance : Inhabited Json := ⟨.null⟩

/-- The JSON number of an integer. -/
def ofInt (n : Int) : Json := .number (Text.decimal n)

instance : Coe Int Json := ⟨ofInt⟩

instance : Coe Nat Json := ⟨fun n => ofInt n⟩

instance : Coe Bool Json := ⟨bool⟩

instance : Coe String Json := ⟨text⟩

/-- The array of the values of a list. -/
def ofList {α : Type} (f : α → Json) (xs : List α) : Json := .array (xs.map f)

/-- The value of what is there, and `null` for what is not. -/
def ofOption {α : Type} (f : α → Json) : Option α → Json
  | some a => f a
  | none => .null

/-- The array of texts. -/
def texts (xs : List String) : Json := ofList text xs

end Json

end Interleaving
