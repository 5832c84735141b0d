import Interleaving.Json.Basic
import Interleaving.Text.Quoted

/-!
# Writing JSON

Two layouts of a JSON value: `Interleaving.Json.compact` without any white space, and
`Interleaving.Json.indented` with one member or item a line and two spaces a level. Both escape the
characters that end a script element or a line of a script (`<`, `>`, `&`, U+2028, U+2029) by their
number, so that a document can stand inside a page.
-/

namespace Interleaving.Json

/-- One character inside a JSON text. -/
def escapeChar (c : Char) : List Char :=
  if c = '"' then ['\\', '"']
  else if c = '\\' then ['\\', '\\']
  else if c = '\n' then ['\\', 'n']
  else if c = '\r' then ['\\', 'r']
  else if c = '\t' then ['\\', 't']
  else if c.toNat = 8 then ['\\', 'b']
  else if c.toNat = 12 then ['\\', 'f']
  else if c.toNat < 0x20 || c = '<' || c = '>' || c = '&' || c.toNat = 0x2028 ||
      c.toNat = 0x2029 then
    '\\' :: 'u' :: Text.hex 4 c.toNat
  else [c]

/-- A text between quotes, escaped. -/
def writeText (s : String) : List Char :=
  '"' :: s.toList.flatMap escapeChar ++ ['"']

mutual

/-- The value without white space. -/
def write : Json → List Char
  | .null => ['n', 'u', 'l', 'l']
  | .bool true => ['t', 'r', 'u', 'e']
  | .bool false => ['f', 'a', 'l', 's', 'e']
  | .number literal => literal.toList
  | .text s => writeText s
  | .array items => '[' :: writeItems items
  | .object members => '\x7b' :: writeMembers members

/-- The items of an array up to and including its closing bracket. -/
def writeItems : List Json → List Char
  | [] => [']']
  | v :: vs => write v ++ writeMoreItems vs

/-- The items of an array after the first, and its closing bracket. -/
def writeMoreItems : List Json → List Char
  | [] => [']']
  | v :: vs => ',' :: write v ++ writeMoreItems vs

/-- The members of an object up to and including its closing brace. -/
def writeMembers : List (String × Json) → List Char
  | [] => ['\x7d']
  | (name, v) :: ms => writeText name ++ ':' :: write v ++ writeMoreMembers ms

/-- The members of an object after the first, and its closing brace. -/
def writeMoreMembers : List (String × Json) → List Char
  | [] => ['\x7d']
  | (name, v) :: ms => ',' :: writeText name ++ ':' :: write v ++ writeMoreMembers ms

end

/-- A new line at a depth, two spaces a level. -/
def newline (depth : Nat) : List Char := '\n' :: List.replicate (2 * depth) ' '

mutual

/-- The value with one member or item a line; `depth` is the level of the line it starts on. -/
def writeIndented (depth : Nat) : Json → List Char
  | .array [] => ['[', ']']
  | .array (v :: vs) =>
    '[' :: newline (depth + 1) ++ writeIndented (depth + 1) v ++ indentItems depth vs
  | .object [] => ['\x7b', '\x7d']
  | .object ((name, v) :: ms) =>
    '\x7b' :: newline (depth + 1) ++ writeText name ++ ':' :: ' ' ::
      writeIndented (depth + 1) v ++ indentMembers depth ms
  | .null => ['n', 'u', 'l', 'l']
  | .bool true => ['t', 'r', 'u', 'e']
  | .bool false => ['f', 'a', 'l', 's', 'e']
  | .number literal => literal.toList
  | .text s => writeText s

/-- The items after the first of an array that starts at `depth`, and its closing bracket. -/
def indentItems (depth : Nat) : List Json → List Char
  | [] => newline depth ++ [']']
  | v :: vs =>
    ',' :: newline (depth + 1) ++ writeIndented (depth + 1) v ++ indentItems depth vs

/-- The members after the first of an object that starts at `depth`, and its closing brace. -/
def indentMembers (depth : Nat) : List (String × Json) → List Char
  | [] => newline depth ++ ['\x7d']
  | (name, v) :: ms =>
    ',' :: newline (depth + 1) ++ writeText name ++ ':' :: ' ' ::
      writeIndented (depth + 1) v ++ indentMembers depth ms

end

/-- The text of the value without white space. -/
def compact (v : Json) : String := String.ofList (write v)

/-- The text of the value with one member or item a line. -/
def indented (v : Json) : String := String.ofList (writeIndented 0 v)

end Interleaving.Json
