import Interleaving.Search.Basic

/-!
# What a session is to do

A session checks one program. Some of its settings can also stand in the program file, in a block of
settings; those that were given to the session itself, which `Interleaving.Session.Config.explicit`
names, win over the file. `Interleaving.Session.Config.search` puts both together.
-/

namespace Interleaving.Session

/-- The settings of a session. -/
structure Config where
  /-- A program file, or a directory with program files. -/
  programPath : String
  logFormat : String
  logLevel : String
  /-- The port that answers questions about the health of a session; zero when there is none. -/
  healthPort : Int
  /-- The greatest number of runs; zero stands for no limit. -/
  maxIterations : Int
  /-- The name of the policy; the empty name stands for the default. -/
  policy : String
  seed : UInt64
  stopOnBug : Bool
  /-- The directory for graphs of every run; empty when there is none. -/
  debugDir : String
  /-- The directory for the report and the trace; empty when there is none. -/
  reportDir : String
  /-- Whether the trace in the report directory is replayed. -/
  replay : Bool
  /-- Whether the growth of the coverage is shown. -/
  coverage : Bool
  viewerUrl : String
  viewerNamespace : String
  /-- The names of the settings that were given to the session itself, in increasing order. -/
  explicit : List String
deriving DecidableEq

/-- What is wrong with the settings of a session. -/
inductive Config.Fault where
  | noProgram
  | negativeLimit (limit : Int)
  | unknownPolicy (name : String)
  | portOutOfRange (port : Int)
  | replayWithoutDirectory
deriving DecidableEq

/-- The message about settings that are wrong. -/
def Config.Fault.message : Config.Fault → String
  | .noProgram => "ProgramPath is a required configuration field and cannot be empty"
  | .negativeLimit limit => "max iterations must not be negative, got " ++ Text.decimal limit
  | .unknownPolicy name => Policy.unknownName name
  | .portOutOfRange port => "healthcheck port " ++ Text.decimal port ++ " is out of range"
  | .replayWithoutDirectory => "replay needs a report directory holding the trace"

/-- The names of the settings that a program file can hold too. -/
def maxIterationsName : String := "max-iterations"

@[inherit_doc maxIterationsName]
def policyName : String := "policy"

@[inherit_doc maxIterationsName]
def seedName : String := "seed"

@[inherit_doc maxIterationsName]
def stopOnBugName : String := "stop-on-bug"

/-- The name of the file with the trace, in the report directory. -/
def traceFile : String := "replay.json"

namespace Config

/-- The greatest number of a port. -/
def greatestPort : Int := 65535

/-- The first thing that is wrong with the settings. -/
def fault? (c : Config) : Option Fault :=
  if c.programPath = "" then some .noProgram
  else if c.maxIterations < 0 then some (.negativeLimit c.maxIterations)
  else if c.policy ≠ "" && (Policy.ofName? c.policy).isNone then some (.unknownPolicy c.policy)
  else if c.healthPort < 0 || greatestPort < c.healthPort then some (.portOutOfRange c.healthPort)
  else if c.replay && c.reportDir = "" then some .replayWithoutDirectory
  else none

/-- The file with the trace. -/
def tracePath (c : Config) : String := Files.join c.reportDir traceFile

/-- A setting from the program file, unless the session was given its own. -/
def choose {α : Type} (c : Config) (name : String) (own : α) (fromFile : Option α) : α :=
  if c.explicit.contains name then own else fromFile.getD own

/-- What the search of a session is to do, for a program that may come with settings. The only fault
is a policy in the program file that nobody knows; the error is its name. -/
def search (c : Config) (settings : Option Settings) : Except String Search.Config := do
  let wish {α : Type} (f : Settings → Option α) : Option α := settings.bind f
  let own := c.explicit.contains policyName
  if let some name := wish (·.policy) then
    if !own && (Policy.ofName? name).isNone then throw name
  let path := if c.reportDir = "" then "" else c.tracePath
  return {
    maxIterations := c.choose maxIterationsName c.maxIterations (wish (·.maxIterations))
    stopOnBug := c.choose stopOnBugName c.stopOnBug (wish (·.stopOnBug))
    tracePath := if c.replay then "" else path
    replayPath := if c.replay then path else ""
    scheduler := {
      policy := c.choose policyName c.policy (wish (·.policy))
      seed := c.choose seedName c.seed
        ((wish (·.seed)).map UInt64.ofInt)
      debugDir := c.debugDir }
    cancelAfter := none }

end Config

end Interleaving.Session
