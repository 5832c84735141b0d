/-!
# Files

A tree of files and directories as a value. Paths are texts with slashes between the names; the tree
starts at the directory in which a program runs. Reading, writing and making directories answer with
the reasons an operating system gives when a name is missing or is of the wrong sort.
-/

namespace Interleaving

/-- What stands under a path. -/
inductive Files.Entry where
  | file (content : String)
  | directory
deriving DecidableEq

/-- A tree of files and directories, by the names on the way to each of them. Directories that hold
an entry are in the tree themselves. -/
structure Files where
  entries : List (List String × Files.Entry)
deriving DecidableEq

namespace Files

/-- Why a path cannot be used. -/
inductive Reason where
  | missing
  | notDirectory
  | isDirectory
deriving DecidableEq

/-- The words for a reason. -/
def Reason.text : Reason → String
  | .missing => "no such file or directory"
  | .notDirectory => "not a directory"
  | .isDirectory => "is a directory"

/-- A failed operation on a path. -/
structure Error where
  operation : String
  path : String
  reason : Reason
deriving DecidableEq

/-- The message of a failed operation. -/
def Error.message (e : Error) : String :=
  e.operation ++ " " ++ e.path ++ ": " ++ e.reason.text

/-! ### Paths -/

/-- Splits a path at its slashes. -/
def components (path : String) : List String :=
  (path.toList.foldr
    (fun c parts => match parts with
      | part :: more => if c = '/' then [] :: part :: more else (c :: part) :: more
      | [] => [[c]])
    [[]]).map String.ofList

/-- Drops empty names and names of the directory itself, and lets a name be undone by the sign for
the directory above. `above` keeps such signs that have nothing to undo. -/
def simplify (above : Bool) : List String → List String → List String
  | done, [] => done.reverse
  | done, name :: more =>
    if name = "" || name = "." then simplify above done more
    else if name = ".." then
      match done with
      | [] => if above then simplify above [".."] more else simplify above [] more
      | last :: rest =>
        if last = ".." then simplify above (".." :: done) more else simplify above rest more
    else simplify above (name :: done) more

/-- Whether a path starts at the root of the system. -/
def isAbsolute (path : String) : Bool := path.startsWith "/"

/-- The shortest path with the same meaning. -/
def clean (path : String) : String :=
  let names := simplify (!isAbsolute path) [] (components path)
  let joined := "/".intercalate names
  if isAbsolute path then "/" ++ joined
  else if joined = "" then "." else joined

/-- A path below another one, in its shortest form. -/
def join (dir name : String) : String :=
  if dir = "" then (if name = "" then "" else clean name)
  else clean (dir ++ "/" ++ name)

/-- The names on the way to a path. -/
def names (path : String) : List String :=
  (if isAbsolute path then ["/"] else []) ++
    simplify (!isAbsolute path) [] (components path)

/-! ### Looking up -/

/-- No files. -/
def empty : Files := ⟨[]⟩

/-- What stands at the end of a list of names. -/
def entry? (t : Files) (ns : List String) : Option Entry :=
  if ns.isEmpty then some .directory else t.entries.lookup ns

/-- What the names from one of them on lead to; `done` are the names before. -/
def findFrom (t : Files) : List String → List String → Except Reason Entry
  | done, [] =>
    match t.entry? done with
    | some e => .ok e
    | none => .error .missing
  | done, name :: more =>
    match t.entry? done with
    | none => .error .missing
    | some (.file _) => .error .notDirectory
    | some .directory => findFrom t (done ++ [name]) more

/-- What a path leads to. -/
def find (t : Files) (path : String) : Except Reason Entry :=
  if path = "" then .error .missing else t.findFrom [] (names path)

/-- What a path leads to, or a failure of the given operation. -/
def stat (t : Files) (operation path : String) : Except Error Entry :=
  (t.find path).mapError fun r => ⟨operation, path, r⟩

/-- The content of a file. -/
def read (t : Files) (path : String) : Except Error String :=
  match t.find path with
  | .ok (.file content) => .ok content
  | .ok .directory => .error ⟨"read", path, .isDirectory⟩
  | .error r => .error ⟨"open", path, r⟩

/-! ### Changing -/

/-- Puts an entry at the end of a list of names. -/
def put (t : Files) (ns : List String) (e : Entry) : Files :=
  if (t.entries.lookup ns).isSome then
    ⟨t.entries.map fun p => if p.1 = ns then (ns, e) else p⟩
  else ⟨t.entries ++ [(ns, e)]⟩

/-- Writes a file in a directory that exists. -/
def write (t : Files) (path content : String) : Except Error Files :=
  match t.find path with
  | .ok .directory => .error ⟨"open", path, .isDirectory⟩
  | .ok (.file _) => .ok (t.put (names path) (.file content))
  | .error _ =>
    match t.findFrom [] (names path).dropLast with
    | .ok .directory =>
      if (names path).isEmpty then .error ⟨"open", path, .missing⟩
      else .ok (t.put (names path) (.file content))
    | .ok (.file _) => .error ⟨"open", path, .notDirectory⟩
    | .error r => .error ⟨"open", path, r⟩

/-- The first file on the way to a path, by the number of names that lead to it. -/
def fileOnTheWay? (t : Files) (ns : List String) : Option Nat :=
  ((List.range ns.length).map (· + 1)).find? fun n =>
    match t.entry? (ns.take n) with
    | some (.file _) => true
    | _ => false

/-- The directories on the way to a path and the path itself. -/
def waysTo (ns : List String) : List (List String) :=
  ((List.range ns.length).map fun n => ns.take (n + 1))

/-- Makes directories for all names, where they are missing. -/
def putDirectories (t : Files) (ns : List String) : Files :=
  (waysTo ns).foldl (fun t ms => if (t.entry? ms).isSome then t else t.put ms .directory) t

/-- The part of a path that has its first `n` names. -/
def firstNames (path : String) (n : Nat) : String :=
  if n = (names path).length then path
  else
    let ns := (names path).take n
    if isAbsolute path then "/" ++ "/".intercalate (ns.drop 1) else "/".intercalate ns

/-- Makes a directory and all directories on the way to it. -/
def makeDirectories (t : Files) (path : String) : Except Error Files :=
  if path = "" then .error ⟨"mkdir", path, .missing⟩
  else
    match t.fileOnTheWay? (names path) with
    | some n => .error ⟨"mkdir", firstNames path n, .notDirectory⟩
    | none => .ok (t.putDirectories (names path))

/-- Puts a file into the tree together with the directories on the way to it. -/
def addFile (t : Files) (path content : String) : Files :=
  let ns := names path
  (t.putDirectories ns.dropLast).put ns (.file content)

/-- Puts a directory into the tree together with the directories on the way to it. -/
def addDirectory (t : Files) (path : String) : Files := t.putDirectories (names path)

/-! ### Walking -/

/-- The names in a directory, in increasing order. -/
def children (t : Files) (ns : List String) : List String :=
  ((t.entries.filterMap fun (ms, _) =>
    if ms.length = ns.length + 1 && ms.take ns.length = ns then ms.getLast? else none)).mergeSort
      fun a b => decide (a ≤ b)

/-- Whether a directory is passed over by a search. -/
def isHidden (name : String) : Bool := name.startsWith "." || name.startsWith "_"

/-- The files below some names of a directory that end as wanted, in the order of their names. Fuel
bounds the depth. -/
def searchNames (t : Files) (suffix : String) :
    Nat → List String → String → List String → List String
  | 0, _, _, _ => []
  | fuel + 1, dir, path, names =>
    names.flatMap fun name =>
      let below := join path name
      match t.entry? (dir ++ [name]) with
      | some (.file _) => if name.endsWith suffix then [below] else []
      | some .directory =>
        if isHidden name then []
        else searchNames t suffix fuel (dir ++ [name]) below (t.children (dir ++ [name]))
      | none => []

/-- The last name of a path. -/
def baseName (path : String) : String := ((names path).getLast?).getD ""

/-- Why a search finds nothing. -/
inductive SearchError where
  /-- Every name ends with the empty text, which is never meant. -/
  | emptySuffix
  | path (cause : Error)
deriving DecidableEq

/-- The message about a search that finds nothing. -/
def SearchError.message : SearchError → String
  | .emptySuffix => "extension must not be empty"
  | .path cause => cause.message

/-- The files at or below a path whose names end as wanted, in lexical order. Directories whose
names start with a point or an underscore are passed over. -/
def search (t : Files) (root suffix : String) : Except SearchError (List String) :=
  if suffix = "" then .error .emptySuffix
  else
    match t.stat "lstat" root with
    | .error e => .error (.path e)
    | .ok (.file _) => .ok (if (baseName root).endsWith suffix then [root] else [])
    | .ok .directory =>
      .ok (t.searchNames suffix (t.entries.length + 1) (names root) root (t.children (names root)))

end Files

end Interleaving
