import Interleaving.CommandLine.Arguments
import Interleaving.Session.Run

/-!
# The program as a whole

From a list of arguments and some files to what is shown, the files afterwards and the exit code:
`Interleaving.CommandLine.run?`. The exit code is zero for a search without an error of the program,
one for everything that goes wrong in a session, and two for arguments that cannot be used.
-/

namespace Interleaving.CommandLine

/-- Why the program does not end well. -/
inductive Error where
  /-- The arguments cannot be used. -/
  | refused (message : String)
  | session (cause : Session.Error)
deriving DecidableEq

/-- The message for the one who started the program. -/
def Error.message (say : Wording) : Error → String
  | .refused message => message
  | .session cause => cause.message say

/-- The exit code after an error. -/
def Error.exitCode : Error → Nat
  | .refused _ => refusalCode
  | .session _ => 1

/-- How the program ends. -/
structure Ending where
  output : String
  error : Option Error
  files : Files

/-- The exit code. -/
def Ending.exitCode (e : Ending) : Nat := (e.error.map Error.exitCode).getD 0

/-- The end of the program when no session comes about. -/
def Request.ending (r : Request) (files : Files) : Ending :=
  { output := r.output, error := r.message?.map .refused, files }

/-- The end of the program after a session. -/
def Ending.ofSession (e : Session.Ending) : Ending :=
  { output := e.output, error := e.error.map .session, files := e.files }

/-- Runs the program on a list of arguments: `none` if the fuel does not suffice for its search. -/
def run? (fuel : Nat) (stamp : Session.Circumstances) (args : List String) (files : Files) :
    Option Ending :=
  match read args with
  | .session c => (Session.run? fuel c stamp files).map .ofSession
  | request => some (request.ending files)

end Interleaving.CommandLine
