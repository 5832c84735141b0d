/-!
# Details of messages

Most messages are fixed texts with names and numbers in them. Those about a malformed document end
in a detail: what exactly the reader disliked. Functions that word a message take the wording of
details as an argument, so that whoever shows a message decides how much of it to show.
-/

namespace Interleaving

/-- What a reader or an evaluator disliked. -/
inductive Detail where
  /-- A fault in a program file or in the evaluation of one of its expressions. -/
  | diagnostic (reason : String)
  /-- A fault in a JSON or YAML document or in the address of a viewer. -/
  | document (reason : String)
deriving DecidableEq

/-- The detail in full. -/
def Detail.text : Detail → String
  | .diagnostic reason => reason
  | .document reason => reason

/-- A wording of details. -/
abbrev Wording := Detail → String

end Interleaving
