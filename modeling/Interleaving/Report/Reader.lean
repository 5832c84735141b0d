import Interleaving.Report.Basic
import Interleaving.Yaml.Parser

/-!
# Reading reports

A report is read from any YAML document that has the form of one. Members that a report does not
have are passed over, members that are missing or null have the value nothing, and a member that is
given twice or is of the wrong sort makes the whole document no report.
-/

namespace Interleaving.Report

/-! ### Sorts of members -/

/-- What a scalar stands for. -/
def meaningOf? : Yaml → Option Yaml.Meaning
  | .plain s => some (Yaml.meaning s)
  | .text s => some (.text s)
  | _ => none

/-- Whether a document stands for nothing. -/
def isNull (v : Yaml) : Bool := meaningOf? v matches some .null

/-- A text: the characters of any scalar. -/
def text? (v : Yaml) : Option String := if isNull v then some "" else v.scalar?

/-- The integer part of a double, if it is a word. -/
def wordOfFloat? (x : Float) : Option Int :=
  if x.isNaN || 9223372036854775808.0 < x then none
  else if x < -9223372036854775808.0 || x == 9223372036854775808.0 then some Word.least
  else some x.toInt64.toInt

/-- An integer. Numbers with a point or an exponent lose their fraction. -/
def integer? (v : Yaml) : Option Int :=
  match meaningOf? v with
  | some .null => some 0
  | some (.int n) => if Word.fits n then some n else none
  | some (.real x) => wordOfFloat? x
  | _ => none

/-- A truth value; the words for yes and no count too. -/
def truth? (v : Yaml) : Option Bool :=
  match meaningOf? v with
  | some .null => some false
  | some (.bool b) => some b
  | some (.text s) =>
    if Yaml.isOldTruthWord s then some (["y", "Y", "yes", "Yes", "YES", "on", "On",
      "ON"].contains s)
    else none
  | _ => none

/-- A duration. -/
def duration? (v : Yaml) : Option Int :=
  match meaningOf? v with
  | some .null => some 0
  | some (.text s) => Duration.ofText? s
  | _ => none

/-- A moment. -/
def moment? (v : Yaml) : Option Moment :=
  match meaningOf? v with
  | some .null => some .unknown
  | some (.moment m) => some m
  | some _ => v.scalar?.bind Moment.ofText?
  | none => none

/-- A list; items that stand for nothing are passed over. -/
def list? {α : Type} (item? : Yaml → Option α) (v : Yaml) : Option (List α) :=
  match v with
  | .sequence items => (items.filter fun v => !isNull v).mapM item?
  | v => if isNull v then some [] else none

/-- The members of a mapping by their names, or nothing for a mapping with a name twice. -/
def members? (v : Yaml) : Option (List (String × Yaml)) :=
  match v with
  | .mapping ms => do
    let names ← ms.mapM fun m => m.1.scalar?
    guard (names.eraseDups.length = names.length)
    return (ms.filter fun m => !isNull m.1).filterMap fun m =>
      m.1.scalar?.map fun name => (name, m.2)
  | v => if isNull v then some [] else none

/-- Integers by their names. -/
def counts? (v : Yaml) : Option (Dictionary Int) := do
  let ms ← members? v
  return .ofList (← ms.mapM fun (name, v) => do return (name, ← integer? v))

/-- A member of a certain sort. -/
def member? {α : Type} (ms : List (String × Yaml)) (name : String) (sort? : Yaml → Option α) :
    Option α :=
  sort? ((ms.lookup name).getD (.plain ""))

/-! ### Parts of reports -/

/-- A directive. -/
def directive? (v : Yaml) : Option Directive := do
  let ms ← members? v
  return { kind := .ofName (← member? ms "kind" text?), task := ← member? ms "task" integer? }

/-- Where a task stands. -/
def taskReport? (v : Yaml) : Option TaskReport := do
  let ms ← members? v
  return {
    task := ← member? ms "task" integer?
    thread := ← member? ms "thread" text?
    position := ← member? ms "pc" integer?
    state := ← member? ms "state" text? }

/-- A bug. -/
def bug? (v : Yaml) : Option Bug := do
  let ms ← members? v
  return {
    iteration := ← member? ms "iteration" integer?
    message := ← member? ms "message" text?
    schedule := ← member? ms "schedule" (list? directive?)
    tasks := ← member? ms "tasks" (list? taskReport?) }

/-- What was covered. -/
def coverage? (v : Yaml) : Option CoverageSummary := do
  let ms ← members? v
  return {
    distinct := ← member? ms "distinct" integer?
    total := ← member? ms "total" integer?
    duplicates := ← member? ms "duplicates" integer?
    series := ← member? ms "series" (list? integer?) }

/-- What was explored. -/
def exploration? (v : Yaml) : Option ExplorationSummary := do
  let ms ← members? v
  return {
    popped := ← member? ms "popped" counts?
    pushed := ← member? ms "pushed" counts?
    inconsistent := ← member? ms "inconsistent" integer?
    pending := ← member? ms "pending" integer? }

/-- The result of a search, or nothing. -/
def searchResult? (v : Yaml) : Option (Option SearchResult) :=
  if isNull v then some none
  else do
    let ms ← members? v
    return some {
      runId := ← member? ms "run_id" text?
      program := ← member? ms "program" text?
      iterations := ← member? ms "iterations" integer?
      complete := ← member? ms "complete" truth?
      ok := ← member? ms "ok" integer?
      blocked := ← member? ms "blocked" integer?
      bugs := ← member? ms "bugs" (list? bug?)
      tracePath := ← member? ms "trace_path" text?
      coverage := ← member? ms "coverage" coverage?
      stats := ← member? ms "stats" exploration?
      elapsed := ← member? ms "elapsed" duration? }

/-- The report that a document holds. -/
def ofYaml? (v : Yaml) : Option Report := do
  let ms ← members? v
  return {
    generated := ← member? ms "generated" moment?
    verdict := ← member? ms "verdict" text?
    result := ← member? ms "result" searchResult? }

/-! ### Files -/

/-- Why a report cannot be read. -/
inductive ReadError where
  | file (cause : Files.Error)
  /-- The file is no YAML document, or none that has the form of a report. -/
  | document (path : String)
deriving DecidableEq

/-- The message about a report that cannot be read. -/
def ReadError.message (say : Wording) : ReadError → String
  | .file cause => "failed to read report: " ++ cause.message
  | .document path =>
    "failed to decode report " ++ path ++ ": " ++ say (.document "the document is no report")

/-- The report that a text holds; a text without a document is a report without a result. -/
def ofText? (s : String) : Option Report := do
  match ← Yaml.parse? s with
  | some v => ofYaml? v
  | none => ofYaml? (.plain "")

/-- Reads a report from a file. -/
def read (files : Files) (path : String) : Except ReadError Report :=
  match files.read path with
  | .error cause => .error (.file cause)
  | .ok s =>
    match ofText? s with
    | some r => .ok r
    | none => .error (.document path)

end Interleaving.Report
