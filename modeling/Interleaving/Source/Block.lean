import Interleaving.Source.Expression

/-!
# Blocks of a program file

A program file holds attributes, `name = expression`, and blocks: a kind, labels and a body between
braces that again holds attributes and blocks. An attribute ends with its line; so does a block
after its closing brace. A body on one line holds at most one attribute and no block. No attribute
may be given twice.
-/

namespace Interleaving.Source

/-- A block with its kind and labels, and what stands in its body. -/
inductive Block where
  | mk (kind : String) (labels : List String) (attributes : List (String × Expression))
      (blocks : List Block)

/-- What stands in a file or in the body of a block. -/
structure Body where
  attributes : List (String × Expression)
  blocks : List Block

instance : Inhabited Body := ⟨[], []⟩

namespace Block

/-- The kind of a block. -/
def kind : Block → String
  | .mk kind _ _ _ => kind

/-- The labels of a block. -/
def labels : Block → List String
  | .mk _ labels _ _ => labels

/-- The body of a block. -/
def body : Block → Body
  | .mk _ _ attributes blocks => ⟨attributes, blocks⟩

end Block

/-- Adds an attribute, unless there is one of the same name. -/
def Body.addAttribute? (b : Body) (name : String) (e : Expression) : Option Body :=
  if (b.attributes.lookup name).isSome then none
  else some { b with attributes := b.attributes ++ [(name, e)] }

/-- Adds a block. -/
def Body.addBlock (b : Body) (block : Block) : Body := { b with blocks := b.blocks ++ [block] }

/-- The tokens after the end of a line; the end of the file ends a line, too. -/
def endOfLine? : List Token → Option (List Token)
  | [] => some []
  | .newline :: ts => some ts
  | _ => none

/-- Reads the labels of a block up to the opening brace: names or quoted texts without code. -/
def labels? : List Token → Option (List String × List Token)
  | .symbol "\x7b" :: ts => some ([], ts)
  | .name s :: ts => (labels? ts).map fun (ls, ts) => (s :: ls, ts)
  | .openQuote :: .closeQuote :: ts => (labels? ts).map fun (ls, ts) => ("" :: ls, ts)
  | .openQuote :: .text s :: .closeQuote :: ts => (labels? ts).map fun (ls, ts) => (s :: ls, ts)
  | _ => none

/-- Reads an attribute after its name and the sign for equality. -/
def attribute? (name : String) (b : Body) (ts : List Token) : Option (Body × List Token) := do
  let (e, ts) ← expression? (depth ts) true ts
  return (← b.addAttribute? name e, ts)

mutual

/-- Reads a body up to its closing brace, or up to the end of the file when it is not `nested`. -/
def body? : Nat → Bool → Body → List Token → Option (Body × List Token)
  | 0, _, _, _ => none
  | fuel + 1, nested, b, ts =>
    match ts with
    | .newline :: ts => body? fuel nested b ts
    | [] => if nested then none else some (b, [])
    | .symbol "\x7d" :: ts => if nested then some (b, ts) else none
    | .name name :: .symbol "=" :: ts => do
      let (b, ts) ← attribute? name b ts
      body? fuel nested b (← endOfLine? ts)
    | .name kind :: ts => do
      let (ls, ts) ← labels? ts
      let (inner, ts) ← blockBody? fuel ts
      let b := b.addBlock (.mk kind ls inner.attributes inner.blocks)
      body? fuel nested b (← endOfLine? ts)
    | _ => none

/-- Reads the body of a block after its opening brace, on lines of its own or on the same line. -/
def blockBody? : Nat → List Token → Option (Body × List Token)
  | 0, _ => none
  | fuel + 1, ts =>
    match ts with
    | .name name :: .symbol "=" :: ts => do
      let (b, ts) ← attribute? name default ts
      match ts with
      | .symbol "\x7d" :: ts => return (b, ts)
      | _ => none
    | .symbol "\x7d" :: _ => body? fuel true default ts
    | .newline :: _ => body? fuel true default ts
    | _ => none

end

/-- Reads a program file. -/
def readFile? (s : String) : Option Body := do
  let ts ← scan? s
  let (b, _) ← body? (2 * (ts.length + 2)) false default ts
  return b

end Interleaving.Source
