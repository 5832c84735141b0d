import Interleaving.Session.Config
import Interleaving.Text.Case
import Interleaving.Text.Literal

/-!
# Flags

The flags of the command line: their names, what kind of value each takes and what it is for, and
the values that a list of flags amounts to (`Interleaving.CommandLine.Values`). The text about the
usage is made from the same table, so that it names every flag.
-/

namespace Interleaving.CommandLine

/-- A flag. -/
inductive Flag where
  | program
  /-- A short form of `program`, which counts when that is empty. -/
  | shortProgram
  | healthPort
  | logFormat
  | logLevel
  | maxIterations
  | policy
  | seed
  | stopOnBug
  | debugDir
  | reportDir
  | replay
  | coverage
  | viewerUrl
  | viewerNamespace
deriving DecidableEq

namespace Flag

/-- What a flag takes. -/
inductive Takes where
  | text
  | integer
  | natural
  /-- Nothing, or a truth value that is attached to the flag. -/
  | nothing
deriving DecidableEq

/-- The name of a flag. -/
def name : Flag → String
  | .program => "program"
  | .shortProgram => "p"
  | .healthPort => "healthcheck-port"
  | .logFormat => "log-format"
  | .logLevel => "log-level"
  | .maxIterations => Session.maxIterationsName
  | .policy => Session.policyName
  | .seed => Session.seedName
  | .stopOnBug => Session.stopOnBugName
  | .debugDir => "debug-dir"
  | .reportDir => "report-dir"
  | .replay => "replay"
  | .coverage => "coverage"
  | .viewerUrl => "visualizer-url"
  | .viewerNamespace => "visualizer-namespace"

/-- What a flag takes. -/
def takes : Flag → Takes
  | .healthPort => .integer
  | .maxIterations => .integer
  | .seed => .natural
  | .stopOnBug => .nothing
  | .replay => .nothing
  | .coverage => .nothing
  | _ => .text

/-- What a flag is for. -/
def purpose : Flag → String
  | .program => "Path to the program file or directory."
  | .shortProgram => "Path to the program file or directory (shorthand)."
  | .healthPort => "Port for the HTTP health check and metrics server. 0 is disabled."
  | .logFormat => "Log output format. Options: 'text' or 'json'."
  | .logLevel => "Set the logging level. Options: 'debug', 'info', 'warn', 'error'."
  | .maxIterations => "Maximum number of runs. 0 explores until exhaustion."
  | .policy =>
    "Task choice once a run leaves its guiding schedule. Options: 'fifo' or 'random'."
  | .seed => "Seed of the 'random' policy."
  | .stopOnBug => "Stop at the first bug."
  | .debugDir =>
    "Directory for per-iteration graph dumps; also enables extensive consistency checks."
  | .reportDir => "Directory for report.yaml and the replay trace of the first bug."
  | .replay => "Replay the trace stored in -report-dir instead of exploring."
  | .coverage => "Print the coverage series after the search."
  | .viewerUrl => "socket.io URL of a graph viewer."
  | .viewerNamespace => "socket.io namespace of the graph viewer."

/-- The text that a flag has when it is not given. -/
def unset : Flag → String
  | .logFormat => "json"
  | .logLevel => "info"
  | .policy => "fifo"
  | .viewerNamespace => "/"
  | _ => ""

/-- All flags, in the order of their names. -/
def all : List Flag :=
  [.coverage, .debugDir, .healthPort, .logFormat, .logLevel, .maxIterations, .shortProgram, .policy,
    .program, .replay, .reportDir, .seed, .stopOnBug, .viewerNamespace, .viewerUrl]

/-- The flag with a name. -/
def ofName? (s : String) : Option Flag := all.find? fun f => f.name = s

/-- The word for what a flag takes, in the text about the usage. -/
def Takes.word : Takes → String
  | .text => " string"
  | .integer => " int"
  | .natural => " uint"
  | .nothing => ""

/-- The lines about a flag. -/
def usage (f : Flag) : String :=
  "  -" ++ f.name ++ f.takes.word ++ "\n    \t" ++ f.purpose ++
    (if f.unset = "" then "" else " (default " ++ Text.quote f.unset ++ ")") ++ "\n"

end Flag

/-- The text about the usage. -/
def usage : String :=
  "\nTrustGo - A stateless model checker for concurrent programs.\n\nUsage:\n" ++
  "  trustgo [options] [PROGRAM_PATH]\n\nArguments:\n  PROGRAM_PATH\n" ++
  "    Path to a single .hcl file or a directory containing .hcl files.\n\nOptions:\n" ++
  String.join (Flag.all.map Flag.usage)

/-! ### Values -/

/-- The values of the flags. -/
structure Values where
  program : String := Flag.program.unset
  shortProgram : String := Flag.shortProgram.unset
  healthPort : Int := 0
  logFormat : String := Flag.logFormat.unset
  logLevel : String := Flag.logLevel.unset
  maxIterations : Int := 0
  policy : String := Flag.policy.unset
  seed : UInt64 := 0
  stopOnBug : Bool := false
  debugDir : String := Flag.debugDir.unset
  reportDir : String := Flag.reportDir.unset
  replay : Bool := false
  coverage : Bool := false
  viewerUrl : String := Flag.viewerUrl.unset
  viewerNamespace : String := Flag.viewerNamespace.unset
  /-- The flags that were given, each of them once. -/
  given : List Flag := []
deriving DecidableEq

namespace Values

/-- Puts the value of a flag in the place of the one before. -/
def assign (v : Values) (f : Flag) (s : String) : Except Text.LiteralFault Values :=
  let truth : Except Text.LiteralFault Bool :=
    match Text.truth? s with
    | some b => .ok b
    | none => .error .malformed
  match f with
  | .program => .ok { v with program := s }
  | .shortProgram => .ok { v with shortProgram := s }
  | .healthPort => (Text.signedLiteral s).map fun n => { v with healthPort := n }
  | .logFormat => .ok { v with logFormat := s }
  | .logLevel => .ok { v with logLevel := s }
  | .maxIterations => (Text.signedLiteral s).map fun n => { v with maxIterations := n }
  | .policy => .ok { v with policy := s }
  | .seed => (Text.unsignedLiteral s).map fun n => { v with seed := n }
  | .stopOnBug => truth.map fun b => { v with stopOnBug := b }
  | .debugDir => .ok { v with debugDir := s }
  | .reportDir => .ok { v with reportDir := s }
  | .replay => truth.map fun b => { v with replay := b }
  | .coverage => truth.map fun b => { v with coverage := b }
  | .viewerUrl => .ok { v with viewerUrl := s }
  | .viewerNamespace => .ok { v with viewerNamespace := s }

/-- Puts the value of a flag in the place of the one before and notes that the flag was given. -/
def set (v : Values) (f : Flag) (s : String) : Except Text.LiteralFault Values :=
  (v.assign f s).map fun v =>
    if v.given.contains f then v else { v with given := f :: v.given }

/-- The names of the flags that were given, in increasing order. -/
def givenNames (v : Values) : List String :=
  (Flag.all.filter v.given.contains).map Flag.name

end Values

end Interleaving.CommandLine
