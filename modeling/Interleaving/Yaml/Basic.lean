/-!
# YAML documents

A YAML document as a value. A scalar is **plain** when it stands there as it is, so that its
characters decide whether it is a number, a truth value or a text, and a **text** when quotes or a
block settle that it is one. Mappings keep the order of their members.
-/

namespace Interleaving

/-- A YAML document. -/
inductive Yaml where
  | plain (s : String)
  | text (s : String)
  | sequence (items : List Yaml)
  | mapping (members : List (Yaml × Yaml))

namespace Yaml

instance : Inhabited Yaml := ⟨.plain ""⟩

/-- The mapping of some names to their values. -/
def fields (members : List (String × Yaml)) : Yaml :=
  .mapping (members.map fun (name, v) => (.text name, v))

/-- The characters of a scalar. -/
def scalar? : Yaml → Option String
  | .plain s => some s
  | .text s => some s
  | _ => none

/-- The characters that end a line. A line also ends with a carriage return or with a next-line
character, but those are turned into line feeds before a document is looked at. -/
def isBreak (c : Char) : Bool := c = '\n' || c = '\u2028' || c = '\u2029'

end Yaml

end Interleaving
