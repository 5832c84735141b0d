import Interleaving.Program.Basic
import Interleaving.Source.Block

/-!
# Declarations of a program file

What a program file may declare: `checker` blocks with wishes for the search and `program` blocks
with `var` and `thread` blocks, threads with `op` blocks. Anything else at the top of a file is
passed over; inside these blocks an attribute or block that is not foreseen, or a wrong number of
labels, makes the file unusable (`Interleaving.Source.declarations?`).

Names and messages of operations are read here, without any register; numbers and truth values turn
into texts. Other expressions are kept as they are.
-/

namespace Interleaving.Source

/-- The declaration of a shared variable. -/
structure VariableDeclaration where
  name : String
  initial : Option Expression

/-- The declaration of a thread. -/
structure ThreadDeclaration where
  name : String
  operations : List Operation

/-- A `program` block. -/
structure ProgramDeclaration where
  name : String
  globals : List VariableDeclaration
  threads : List ThreadDeclaration

/-- A `checker` block. -/
structure CheckerDeclaration where
  maxIterations : Option Expression
  policy : Option Expression
  seed : Option Expression
  stopOnBug : Option Expression

/-- What a program file declares. -/
structure Declarations where
  checkers : List CheckerDeclaration
  programs : List ProgramDeclaration

/-- The blocks of a kind. -/
def Body.blocksOf (b : Body) (kind : String) : List Block := b.blocks.filter fun x => x.kind = kind

/-- The expression of an attribute. -/
def Body.attribute? (b : Body) (name : String) : Option Expression := b.attributes.lookup name

/-- Whether a body holds only the given attributes and kinds of blocks. -/
def Body.fits (b : Body) (attributes kinds : List String) : Bool :=
  b.attributes.all (fun a => attributes.contains a.1) &&
    b.blocks.all fun x => kinds.contains x.kind

/-- The body of a block without labels that holds only the given attributes and kinds of blocks. -/
def unlabelled? (x : Block) (attributes kinds : List String) : Option Body :=
  if x.labels.isEmpty && x.body.fits attributes kinds then some x.body else none

/-- The label and the body of a block with one label that holds only the given attributes and kinds
of blocks. -/
def labelled? (x : Block) (attributes kinds : List String) : Option (String × Body) :=
  match x.labels with
  | [label] => if x.body.fits attributes kinds then some (label, x.body) else none
  | _ => none

/-- The text of an attribute; the empty text when it is not given. -/
def textAttribute? (b : Body) (name : String) : Option String :=
  match b.attribute? name with
  | none => some ""
  | some e =>
    match e.static with
    | .error _ => none
    | .ok v =>
      match v.toText? with
      | .ok (some s) => some s
      | _ => none

/-- Reads an `op` block. -/
def operation? (x : Block) : Option Operation := do
  let (kind, b) ← labelled? x
    ["var", "into", "lock", "thread", "value", "condition", "message"] []
  return {
    kind := .ofName kind
    shared := ← textAttribute? b "var"
    into := ← textAttribute? b "into"
    lock := ← textAttribute? b "lock"
    thread := ← textAttribute? b "thread"
    value := b.attribute? "value"
    condition := b.attribute? "condition"
    message := ← textAttribute? b "message" }

/-- Reads a `thread` block. -/
def thread? (x : Block) : Option ThreadDeclaration := do
  let (name, b) ← labelled? x [] ["op"]
  return { name, operations := ← b.blocks.mapM operation? }

/-- Reads a `var` block. -/
def sharedVariable? (x : Block) : Option VariableDeclaration := do
  let (name, b) ← labelled? x ["initial"] []
  return { name, initial := b.attribute? "initial" }

/-- Reads a `program` block. -/
def program? (x : Block) : Option ProgramDeclaration := do
  let (name, b) ← labelled? x [] ["var", "thread"]
  return { name, globals := ← (b.blocksOf "var").mapM sharedVariable?,
           threads := ← (b.blocksOf "thread").mapM thread? }

/-- Reads a `checker` block. -/
def checker? (x : Block) : Option CheckerDeclaration := do
  let b ← unlabelled? x ["max_iterations", "policy", "seed", "stop_on_bug"] []
  return { maxIterations := b.attribute? "max_iterations", policy := b.attribute? "policy",
           seed := b.attribute? "seed", stopOnBug := b.attribute? "stop_on_bug" }

/-- The declarations of a program file, unless it is unusable. -/
def declarations? (b : Body) : Option Declarations := do
  return { checkers := ← (b.blocksOf "checker").mapM checker?,
           programs := ← (b.blocksOf "program").mapM program? }

end Interleaving.Source
