import Interleaving.Report.Basic
import Interleaving.Session.Config
import Interleaving.Source.Load

/-!
# Sessions

A session loads a program, searches for its errors and says what was found: in a report, if there is
a directory for it, and in a summary. A search that breaks off for any other reason than an error of
the program leaves neither of them, but the files it has written stay.

Clocks and chance are not part of a session. What they would contribute, the identifier of the run
and the times in the report, is given to it as `Interleaving.Session.Circumstances`.
-/

namespace Interleaving.Session

/-- What differs between two sessions with the same settings and the same files. -/
structure Circumstances where
  runId : String
  /-- When the report is written. -/
  now : Moment
  /-- How long the search takes, in nanoseconds. -/
  elapsed : Int

/-- Why a session fails. -/
inductive Error where
  | load (cause : Source.LoadError)
  /-- The program file wishes for a policy that nobody knows. -/
  | policy (name : String)
  | reportDirectory (cause : Files.Error)
  /-- The search broke off, or it found an error of the program. -/
  | search (cause : Search.Error)
  | report (cause : Report.WriteError)
deriving DecidableEq

/-- The message about a session that fails. -/
def Error.message (say : Wording) : Error → String
  | .load cause =>
    "application startup panicked: failed to load program: " ++ cause.message say
  | .policy name => "checker block: " ++ Policy.unknownName name
  | .reportDirectory cause => (Report.WriteError.directory cause).message
  | .search cause => cause.message say
  | .report cause => cause.message

/-- How a session ends. -/
structure Ending where
  output : String
  error : Option Error
  files : Files

/-! ### The summary -/

/-- The lines about a search. -/
def summary (r : SearchResult) (coverage : Bool) : String :=
  "program " ++ r.program ++ ": " ++ r.verdict.name ++ " after " ++ Text.decimal r.iterations ++
    " iterations (" ++ Text.decimal r.ok ++ " ok, " ++ Text.decimal r.blocked ++ " blocked, " ++
    Text.decimal r.bugs.length ++ " bugs), " ++ Text.decimal r.coverage.distinct ++
    " distinct graphs\n" ++
  String.join (r.bugs.map fun b =>
    "  bug in iteration " ++ Text.decimal b.iteration ++ ": " ++ b.message ++ "\n") ++
  (if coverage then
    "coverage: [" ++ " ".intercalate (r.coverage.series.map Text.decimal) ++ "]\n" else "")

/-! ### A session from its start to its end -/

/-- The end of a session without a summary. -/
def fail (files : Files) (e : Error) : Ending := { output := "", error := some e, files }

/-- A search that came to its end: its result, the error of the program that it found if there is
one, and the files that it left. -/
structure Explored where
  result : SearchResult
  found : Option Search.Error
  files : Files

/-- Makes the directory for the report, if there is to be a new trace in it. -/
def prepareDirectory (c : Config) (files : Files) : Except Files.Error Files :=
  if c.reportDir = "" || c.replay then .ok files else files.makeDirectories c.reportDir

/-- What is left of a search: only errors of the program leave a result. -/
def Explored.ofFinished (f : Search.Finished) : Except Ending Explored :=
  let files := f.search.run.scheduler.files
  match f.error with
  | none => .ok { result := f.search.result, found := none, files }
  | some (.bugFound m) => .ok { result := f.search.result, found := some (.bugFound m), files }
  | some e => .error (fail files (.search e))

/-- Loads the program and searches, or ends the session early: `none` if the fuel does not suffice
for the search. -/
def explore? (fuel : Nat) (c : Config) (files : Files) : Option (Except Ending Explored) :=
  match Source.load files [c.programPath] with
  | .error e => some (.error (fail files (.load e)))
  | .ok p =>
    match c.search p.settings with
    | .error name => some (.error (fail files (.policy name)))
    | .ok s =>
      match prepareDirectory c files with
      | .error e => some (.error (fail files (.reportDirectory e)))
      | .ok files => (Search.run? fuel p s files).map Explored.ofFinished

/-- The end of a session whose search has a result: the report is written, then the summary. -/
def conclude (c : Config) (stamp : Circumstances) (x : Explored) : Ending :=
  let r := { x.result with runId := stamp.runId, elapsed := stamp.elapsed }
  let reported : Except Report.WriteError Files :=
    if c.reportDir = "" then .ok x.files
    else ((Report.ofResult r stamp.now).write c.reportDir x.files).map (·.2)
  match reported with
  | .error e => fail x.files (.report e)
  | .ok files => { output := summary r c.coverage, error := x.found.map .search, files }

/-- A session: `none` if the fuel does not suffice for its search. -/
def run? (fuel : Nat) (c : Config) (stamp : Circumstances) (files : Files) : Option Ending :=
  (explore? fuel c files).map fun
    | .error e => e
    | .ok x => conclude c stamp x

end Interleaving.Session
