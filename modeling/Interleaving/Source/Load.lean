import Interleaving.Detail
import Interleaving.Files
import Interleaving.Program.Validation
import Interleaving.Source.Schema

/-!
# Loading programs

A program is read from one or several files, which are named one by one or found below directories.
Their `program` blocks must agree on the name and are put together; at most one `checker` block may
stand in all of them. The program that comes out is validated.
-/

namespace Interleaving.Source

/-- Why an attribute of a `checker` block is unusable. -/
inductive SettingError where
  | expression (fault : Expression.Fault)
  | mismatch (given wanted : Shape) (cause : Value.Mismatch)
  | word (cause : Value.WordError)
deriving DecidableEq

/-- The message about an attribute of a `checker` block. -/
def SettingError.message (say : Wording) : SettingError → String
  | .expression fault => say (.diagnostic fault.text)
  | .mismatch given wanted cause =>
    "cannot convert " ++ given.name ++ " to required type " ++ wanted.name ++ ": " ++ cause.message
  | .word cause => cause.message

/-- Why the declarations of a file are unusable. -/
inductive DeclarationError where
  | duplicateChecker
  | setting (name : String) (cause : SettingError)
  | negativeIterations (n : Int)
  | conflict (name other : String)
  | duplicateVariable (program name : String)
  | duplicateThread (program name : String)
  | initialFault (name : String) (fault : Expression.Fault)
  | initialShape (name : String) (shape : Shape)
deriving DecidableEq

/-- The message about declarations of a file. -/
def DeclarationError.message (say : Wording) : DeclarationError → String
  | .duplicateChecker => "duplicate checker block"
  | .setting name cause => "checker." ++ name ++ ": " ++ cause.message say
  | .negativeIterations n =>
    "checker.max_iterations must not be negative, got " ++ Text.decimal n
  | .conflict name other => "program '" ++ name ++ "' conflicts with program '" ++ other ++ "'"
  | .duplicateVariable program name => "program '" ++ program ++ "': duplicate var '" ++ name ++ "'"
  | .duplicateThread program name =>
    "program '" ++ program ++ "': duplicate thread '" ++ name ++ "'"
  | .initialFault name fault => "var '" ++ name ++ "': " ++ say (.diagnostic fault.text)
  | .initialShape name shape =>
    "var '" ++ name ++ "': initial value must be a number or bool, got " ++ shape.name

/-- Why no program can be loaded. -/
inductive LoadError where
  | path (place : String) (cause : Files.Error)
  | search (cause : Files.SearchError)
  | noFiles (paths : List String)
  | unreadable (file : String)
  | unusable (file : String)
  | declaration (file : String) (cause : DeclarationError)
  | invalid (faults : List Program.Fault)
deriving DecidableEq

/-- The ending of the names of program files. -/
def extension : String := ".hcl"

/-- The message about a program that cannot be loaded. -/
def LoadError.message (say : Wording) : LoadError → String
  | .path place cause => "error accessing path " ++ place ++ ": " ++ cause.message
  | .search cause => cause.message
  | .noFiles paths => "no " ++ extension ++ " files found in [" ++ " ".intercalate paths ++ "]"
  | .unreadable file =>
    "failed to parse HCL file " ++ file ++ ": " ++ say (.diagnostic "the file is not well formed")
  | .unusable file =>
    "failed to decode HCL file " ++ file ++ ": " ++
      say (.diagnostic "a block or attribute is not foreseen")
  | .declaration file cause => file ++ ": " ++ cause.message say
  | .invalid faults => Program.faultsMessage faults

/-! ### Settings -/

/-- Evaluates an attribute of a `checker` block. -/
def settingValue (e : Expression) : Except SettingError Value := e.static.mapError .expression

/-- An attribute as a word. -/
def wordSetting (e : Expression) : Except SettingError Int := do
  let v ← settingValue e
  match v.toNumber? with
  | .error cause => throw (.mismatch v.shape .number cause)
  | .ok none => throw (.word .null)
  | .ok (some n) => (Value.number n).word.mapError .word

/-- An attribute as a text. -/
def textSetting (e : Expression) : Except SettingError String := do
  let v ← settingValue e
  match v.toText? with
  | .error cause => throw (.mismatch v.shape .text cause)
  | .ok none => throw (.word .null)
  | .ok (some s) => return s

/-- An attribute as a truth value. -/
def boolSetting (e : Expression) : Except SettingError Bool := do
  let v ← settingValue e
  match v.toBool? with
  | .error cause => throw (.mismatch v.shape .bool cause)
  | .ok none => throw (.word .null)
  | .ok (some b) => return b

/-- Reads an attribute that may be missing. -/
def optional {α : Type} (name : String) (read : Expression → Except SettingError α)
    (e : Option Expression) : Except DeclarationError (Option α) :=
  match e with
  | none => .ok none
  | some e => ((read e).mapError (.setting name)).map some

/-- The wishes of a `checker` block. -/
def settings (c : CheckerDeclaration) : Except DeclarationError Settings := do
  let maxIterations ← optional "max_iterations" wordSetting c.maxIterations
  if let some n := maxIterations then
    if n < 0 then throw (.negativeIterations n)
  let policy ← optional "policy" textSetting c.policy
  let seed ← optional "seed" wordSetting c.seed
  let stopOnBug ← optional "stop_on_bug" boolSetting c.stopOnBug
  return { maxIterations, policy, seed, stopOnBug }

/-! ### Programs -/

/-- Adds a variable to a program. -/
def addVariable (block : String) (p : Program) (v : VariableDeclaration) :
    Except DeclarationError Program := do
  if p.globals.has v.name then throw (.duplicateVariable block v.name)
  let initial ← match v.initial with
    | none => pure Value.zero
    | some e => e.static.mapError (.initialFault v.name)
  if initial.shape ≠ .number && initial.shape ≠ .bool then
    throw (.initialShape v.name initial.shape)
  return { p with globals := p.globals.set v.name initial }

/-- Adds a thread to a program. -/
def addThread (block : String) (p : Program) (t : ThreadDeclaration) :
    Except DeclarationError Program :=
  if p.threads.has t.name then .error (.duplicateThread block t.name)
  else .ok { p with threads := p.threads.set t.name t.operations }

/-- Adds the declarations of a `program` block to a program. -/
def addProgram (p : Program) (d : ProgramDeclaration) : Except DeclarationError Program := do
  if p.name ≠ "" && p.name ≠ d.name then throw (.conflict d.name p.name)
  let p := { p with name := d.name }
  let p ← d.globals.foldlM (addVariable d.name) p
  d.threads.foldlM (addThread d.name) p

/-- Adds the wishes of a `checker` block to a program. -/
def addChecker (p : Program) (c : CheckerDeclaration) : Except DeclarationError Program := do
  if p.settings.isSome then throw .duplicateChecker
  return { p with settings := some (← settings c) }

/-- Adds the declarations of a file to a program. -/
def addFile (files : Files) (p : Program) (file : String) : Except LoadError Program := do
  let content := (files.read file).toOption
  let body ← match content.bind readFile? with
    | some b => pure b
    | none => throw (.unreadable file)
  let declared ← match declarations? body with
    | some d => pure d
    | none => throw (.unusable file)
  let add (p : Program) : Except DeclarationError Program := do
    let p ← declared.checkers.foldlM addChecker p
    declared.programs.foldlM addProgram p
  (add p).mapError (.declaration file)

/-! ### Files -/

/-- The program files at or below a path. A path that is a file is taken whatever its name. -/
def filesAt (files : Files) (path : String) : Except LoadError (List String) :=
  match files.stat "stat" path with
  | .error e => .error (.path path e)
  | .ok (.file _) => .ok [path]
  | .ok .directory => (files.search path extension).mapError .search

/-- The program files at or below several paths, each of them once. -/
def filesAtAll (files : Files) (paths : List String) : Except LoadError (List String) := do
  let found ← paths.mapM (filesAt files)
  return found.flatten.eraseDups

/-- Loads a program from files or directories. -/
def load (files : Files) (paths : List String) : Except LoadError Program := do
  let found ← filesAtAll files paths
  if found.isEmpty then throw (.noFiles paths)
  let p ← found.foldlM (addFile files) .empty
  if p.isValid then return p else throw (.invalid p.faults)

end Interleaving.Source
