import Interleaving.CommandLine.Flag

/-!
# Arguments

How a list of arguments is read. Flags come first: an argument that starts with one or two dashes,
its value attached after an equals sign or standing in the next argument. The flags end at the first
argument that is none, at a dash alone, or after two dashes; what follows are the other arguments. A
flag that is given twice has its last value.

`Interleaving.CommandLine.read` then makes a session of it, or says what is wrong with it: a
**faulty flag** is answered with the text about the usage, a **setting** that cannot be is only
named, and without a program there is nothing to do but to show the usage.
-/

namespace Interleaving.CommandLine

/-- What is wrong with a flag. -/
inductive FlagFault where
  | malformed (argument : String)
  | unknown (name : String)
  | noValue (flag : Flag)
  | value (flag : Flag) (given : String) (cause : Text.LiteralFault)
deriving DecidableEq

/-- The message about a faulty flag. -/
def FlagFault.message : FlagFault → String
  | .malformed argument => "bad flag syntax: " ++ argument
  | .unknown name => "flag provided but not defined: -" ++ name
  | .noValue flag => "flag needs an argument: -" ++ flag.name
  | .value flag given cause =>
    if flag.takes = .nothing then
      "invalid boolean value " ++ Text.quote given ++ " for -" ++ flag.name ++ ": " ++ cause.message
    else
      "invalid value " ++ Text.quote given ++ " for flag -" ++ flag.name ++ ": " ++ cause.message

/-! ### Flags among the arguments -/

/-- What an argument is when flags are still expected. -/
inductive Argument where
  /-- A flag with a name, and the value that is attached to it. -/
  | flag (name : String) (value : Option String)
  /-- The mark after which no flag follows. -/
  | mark
  | other
  | malformed
deriving DecidableEq

/-- A name, and a value after the first equals sign that is not its first character. -/
def splitValue (cs : List Char) : String × Option String :=
  match cs with
  | [] => ("", none)
  | c :: cs =>
    let name := String.ofList (c :: cs.takeWhile (· ≠ '='))
    match cs.dropWhile (· ≠ '=') with
    | [] => (name, none)
    | _ :: value => (name, some (String.ofList value))

/-- What stands behind the dashes of a flag. -/
def Argument.ofName : List Char → Argument
  | [] => .malformed
  | c :: cs =>
    if c = '-' || c = '=' then .malformed
    else
      let (name, value) := splitValue (c :: cs)
      .flag name value

/-- Tells what an argument is. -/
def Argument.ofText (s : String) : Argument :=
  match s.toList with
  | ['-'] => .other
  | ['-', '-'] => .mark
  | '-' :: '-' :: cs => .ofName cs
  | '-' :: cs => .ofName cs
  | _ => .other

/-- Why the flags cannot be used. -/
inductive Stop where
  /-- Help is asked for. -/
  | help
  | fault (cause : FlagFault)
deriving DecidableEq

/-- Sets a flag, with a fault that names it. -/
def setFlag (v : Values) (f : Flag) (s : String) : Except Stop Values :=
  (v.set f s).mapError fun cause => .fault (.value f s cause)

/-- The values of the flags in a list of arguments, and the arguments after the flags. -/
def readFlags (v : Values) : List String → Except Stop (Values × List String)
  | [] => .ok (v, [])
  | a :: rest =>
    match Argument.ofText a with
    | .other => .ok (v, a :: rest)
    | .mark => .ok (v, rest)
    | .malformed => .error (.fault (.malformed a))
    | .flag name value =>
      match Flag.ofName? name with
      | none => .error (if name = "help" || name = "h" then .help else .fault (.unknown name))
      | some f =>
        match f.takes, value, rest with
        | .nothing, value, rest => do readFlags (← setFlag v f (value.getD "true")) rest
        | _, some s, rest => do readFlags (← setFlag v f s) rest
        | _, none, s :: rest => do readFlags (← setFlag v f s) rest
        | _, none, [] => .error (.fault (.noValue f))

/-! ### Sessions -/

/-- What a list of arguments asks for. -/
inductive Request where
  | session (config : Session.Config)
  /-- To show the usage. -/
  | help
  | faultyFlag (cause : FlagFault)
  | unknownLogFormat
  | unknownLogLevel
  | faultySetting (cause : Session.Config.Fault)
deriving DecidableEq

/-- The program that is to be checked. -/
def Values.path (v : Values) (others : List String) : String :=
  if v.program ≠ "" then v.program
  else if v.shortProgram ≠ "" then v.shortProgram
  else others.head?.getD ""

/-- The settings that the values of the flags amount to. -/
def Values.config (v : Values) (path : String) : Session.Config :=
  { programPath := path
    logFormat := Text.lowerCase v.logFormat
    logLevel := Text.lowerCase v.logLevel
    healthPort := v.healthPort
    maxIterations := v.maxIterations
    policy := Text.lowerCase v.policy
    seed := v.seed
    stopOnBug := v.stopOnBug
    debugDir := v.debugDir
    reportDir := v.reportDir
    replay := v.replay
    coverage := v.coverage
    viewerUrl := v.viewerUrl
    viewerNamespace := v.viewerNamespace
    explicit := v.givenNames }

/-- The request for a session with some settings, if they can be. -/
def Request.ofConfig (c : Session.Config) : Request :=
  if !(["text", "json"].contains c.logFormat) then .unknownLogFormat
  else if !(["debug", "info", "warn", "error"].contains c.logLevel) then .unknownLogLevel
  else
    match c.fault? with
    | some cause => .faultySetting cause
    | none => .session c

/-- Reads a list of arguments. -/
def read (args : List String) : Request :=
  match readFlags {} args with
  | .error .help => .help
  | .error (.fault cause) => .faultyFlag cause
  | .ok (v, others) =>
    let path := v.path others
    if path = "" then .help else .ofConfig (v.config path)

namespace Request

/-- The message about a request that cannot be met. -/
def message? : Request → Option String
  | .session _ => none
  | .help => none
  | .faultyFlag cause => some cause.message
  | .unknownLogFormat => some "invalid log-format: must be 'text' or 'json'"
  | .unknownLogLevel =>
    some "invalid log-level: must be 'debug', 'info', 'warn', or 'error'"
  | .faultySetting cause => some cause.message

/-- What is shown right after the arguments were read. -/
def output : Request → String
  | .help => usage
  | .faultyFlag cause => cause.message ++ "\n" ++ usage
  | _ => ""

end Request

/-- The exit code after a request that cannot be met. -/
def refusalCode : Nat := 2

end Interleaving.CommandLine
