import Interleaving.CommandLine.Run
import Interleaving.Inspection.Search
import Interleaving.Report.Reader
import Interleaving.Viewer.Address
import Interleaving.Viewer.Message

/-!
# Looking into a session

JSON documents that show settings, requests and reports, and the files that a session leaves.
-/

namespace Interleaving

/-- A document about the settings of a session. -/
def Session.Config.view (c : Session.Config) : Json :=
  .object [("program_path", c.programPath), ("log_format", c.logFormat), ("log_level", c.logLevel),
    ("healthcheck_port", c.healthPort), ("max_iterations", c.maxIterations), ("policy", c.policy),
    ("seed", Text.decimal c.seed.toNat), ("stop_on_bug", c.stopOnBug), ("debug_dir", c.debugDir),
    ("report_dir", c.reportDir), ("replay", c.replay), ("coverage", c.coverage),
    ("visualizer_url", c.viewerUrl), ("visualizer_namespace", c.viewerNamespace),
    ("explicit", .texts c.explicit)]

/-- The members of a document about what a list of arguments asks for. -/
def CommandLine.Request.members (r : CommandLine.Request) : List (String × Json) :=
  ("output", r.output) ::
    match r, r.message? with
    | .session c, _ => [("exit", .bool false), ("config", c.view)]
    | _, some m =>
      [("error", .text "exit"), ("message", .text m), ("code", .ofInt CommandLine.refusalCode)]
    | _, none => [("exit", .bool true), ("config", .null)]

/-- The members of a document about a report, the time apart. -/
def Report.members (r : Report) : List (String × Json) :=
  [("verdict", r.verdict), ("result", .ofOption SearchResult.view r.result)]

/-- The lines of a text that do not start with one of some words, blanks apart. -/
def linesWithout (words : List String) (s : String) : String :=
  "\n".intercalate ((s.splitOn "\n").filter fun line =>
    !words.any fun w => (String.ofList (line.toList.dropWhile (· = ' '))).startsWith w)

/-- The files below a directory that are not among the given ones. Of reports and traces the text is
shown, without what changes from one session to the next. -/
def Files.viewNew (files given : Files) (dir : String) : Json :=
  let root := Files.names dir
  .object (files.entries.filterMap fun (ns, e) =>
    match e with
    | .directory => none
    | .file content =>
      if ns.take root.length = root && (given.entries.lookup ns).isNone then
        some ("/".intercalate (ns.drop root.length),
          if [Report.fileName, Session.traceFile].any (some · = ns.getLast?) then
            .text (linesWithout ["generated:", "run_id:", "elapsed:"] content)
          else .null)
      else none)

end Interleaving
