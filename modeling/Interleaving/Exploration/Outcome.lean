import Interleaving.Text.Numeral

/-!
# Outcomes

What the caller does next after an event or at the start of a run.
-/

namespace Interleaving

/-- How to proceed. -/
inductive Outcome where
  /-- The run goes on. -/
  | proceed
  /-- A task stops; tasks are numbered from zero. -/
  | haltTask (task : Int)
  /-- The run ends because the program has come to its end. -/
  | haltOk
  /-- The run ends because of an error of the program. -/
  | haltError (message : String)
  /-- The search ends: nothing is left to explore. -/
  | haltSearch
deriving DecidableEq

namespace Outcome

/-- The name of the outcome with a code; a code without an outcome is named by its number. -/
def nameOfCode (code : UInt8) : String :=
  match code.toNat with
  | 0 => "continue"
  | 1 => "halt_task"
  | 2 => "halt_execution"
  | 3 => "halt_checker"
  | n => "OutcomeKind(" ++ Nat.repr n ++ ")"

/-- The code of an outcome. -/
def code : Outcome → UInt8
  | .proceed => 0
  | .haltTask _ => 1
  | .haltOk => 2
  | .haltError _ => 2
  | .haltSearch => 3

/-- The outcome with a code, if there is one; the other arguments are used as far as it needs
them. -/
def ofCode? (code : UInt8) (task : Int) (failed : Bool) (message : String) : Option Outcome :=
  match code.toNat with
  | 0 => some .proceed
  | 1 => some (.haltTask task)
  | 2 => some (if failed then .haltError message else .haltOk)
  | 3 => some .haltSearch
  | _ => none

/-- The name of an outcome. -/
def name (o : Outcome) : String := nameOfCode o.code

/-- The text of an outcome, in which tasks are numbered from one. -/
def text (o : Outcome) : String :=
  match o with
  | .haltTask task => o.name ++ "(" ++ Text.decimal (Word.wrap (task + 1)) ++ ")"
  | .haltOk => o.name ++ "(ok)"
  | .haltError message => o.name ++ "(error: " ++ message ++ ")"
  | _ => o.name

/-- Whether the run goes on. -/
def isProceed (o : Outcome) : Bool := o = .proceed

end Outcome

end Interleaving
