import Interleaving.CommandLine.Run

/-!
# The executable

The outer layer: it takes a picture of the files that a session can look at, lets
`Interleaving.Session.explore?` do the work, writes the files that have changed, shows what there is
to show and ends with the exit code.
-/

namespace Interleaving.Executable

/-- The content of a file; what is no text counts as empty. -/
def contentOf (path : String) : IO String := do
  try IO.FS.readFile path catch _ => return ""

/-- Adds a path to a picture and, up to a depth, what is below it. -/
def addPath : Nat → Files → String → IO Files
  | depth, files, path => do
    let kind ← try pure (some (← (← IO.FS.realPath path).metadata).type) catch _ => pure none
    match kind with
    | none => return files
    | some .dir =>
      let files := files.addDirectory path
      match depth with
      | 0 => return files
      | depth + 1 =>
        let entries ← (← IO.FS.realPath path).readDir
        entries.foldlM (fun files e => addPath depth files (path ++ "/" ++ e.fileName)) files
    | some _ => return files.addFile path (← contentOf path)

/-- The picture that a session needs: the program, and what is in the directories it may write
to. -/
def picture (c : Session.Config) : IO Files := do
  let files ← addPath 64 Files.empty c.programPath
  let files ← if c.reportDir = "" then pure files else addPath 1 files c.reportDir
  if c.debugDir = "" then pure files else addPath 1 files c.debugDir

/-- The path that some names lead to. -/
def pathOf (names : List String) : String :=
  match names with
  | "/" :: more => "/" ++ "/".intercalate more
  | more => "/".intercalate more

/-- Writes what is new or has changed. -/
def store (before after : Files) : IO Unit :=
  for (names, entry) in after.entries do
    if before.entries.lookup names ≠ some entry then
      match entry with
      | .directory => IO.FS.createDirAll (pathOf names)
      | .file content => IO.FS.writeFile (pathOf names) content

/-- The time of day: when a new file was made. -/
def wallClock : IO Moment := do
  let (_, path) ← IO.FS.createTempFile
  let t := (← path.metadata).modified
  IO.FS.removeFile path
  return ⟨t.sec, t.nsec.toNat⟩

/-- A name for a run that no other run has. -/
def newRunId : IO String := do
  let bytes ← IO.getRandomBytes 16
  return String.join (bytes.toList.map fun b => String.ofList (Text.hex 2 b.toNat))

/-- A bound that no search reaches. -/
def bound : Nat := 0x4000000000000000

/-- A whole session. -/
def session (c : Session.Config) : IO (Option CommandLine.Ending) := do
  let files ← picture c
  let start ← IO.monoNanosNow
  let some explored := Session.explore? bound c files | return none
  let ending ← match explored with
    | .error e => pure e
    | .ok x =>
      let stamp : Session.Circumstances :=
        { runId := ← newRunId, now := ← wallClock, elapsed := (← IO.monoNanosNow) - start }
      pure (Session.conclude c stamp x)
  store files ending.files
  return some (.ofSession ending)

end Interleaving.Executable

open Interleaving in
/-- Checks the program that the arguments name. -/
def main (args : List String) : IO UInt32 := do
  let ending ← match CommandLine.read args with
    | .session c => Executable.session c
    | request => pure (some (request.ending Files.empty))
  match ending with
  | none =>
    IO.eprintln "the search is too long"
    return 1
  | some e =>
    IO.print e.output
    if let some error := e.error then IO.eprintln (error.message Detail.text)
    return e.exitCode.toUInt32
