import Interleaving.Yaml.Basic
import Interleaving.Yaml.Scalar

/-!
# Writing YAML

Documents are written in block style: a member of a mapping and an item of a sequence on lines of
their own, indented by four, and two columns after the dash of a sequence. Empty collections are
written as brackets.

A text is written plainly where no reader can take it for anything else, on lines of its own when it
has several of them, and in quotes otherwise. `Interleaving.Yaml.Traits` collects what about the
characters of a text decides this, and `Interleaving.Yaml.style` is the decision.
-/

namespace Interleaving.Yaml

/-! ### The style of a text -/

/-- How a text is written. -/
inductive Style where
  | plain
  | singleQuoted
  | doubleQuoted
  /-- On lines of its own. -/
  | literal
deriving DecidableEq

/-- Whether a character can stand in a document as it is. A tab can too, but not everywhere. -/
def isPrintable (c : Char) : Bool :=
  c = '\n' || (' ' ≤ c && c ≤ '~') || ('\u00a0' ≤ c && c ≤ '\ufffd' && c ≠ '\ufeff')

/-- Whether a character is a blank within a line. -/
def isBlank (c : Char) : Bool := c = ' ' || c = '\t'

/-- Whether a character separates words. -/
def separates (c : Char) : Bool :=
  isBlank c || isBreak c || c = '\r' || c = '\u0085' || c = '\u0000'

/-- Whether a break ends a line; unlike in a document, in a text all forms are looked for. -/
def breaksLine (c : Char) : Bool := isBreak c || c = '\r' || c = '\u0085'

/-- Whether a plain scalar cannot start with a character, given the character after it. -/
def startsWrongly (c : Char) (next : Option Char) : Bool :=
  "#,[]\x7b\x7d&*!|>'\"%@\u0060".toList.contains c ||
    ((c = '?' || c = ':' || c = '-') && next.all isBlank)

/-- Whether a character within a plain scalar would end it, given its neighbours. -/
def endsPlain (previous c : Char) (next : Option Char) : Bool :=
  (c = ':' && next.all isBlank) || (c = '#' && separates previous)

/-- Whether a plain scalar would be ended by a character after its first one. -/
def endsWithin : List Char → Bool
  | a :: b :: cs => endsPlain a b cs.head? || endsWithin (b :: cs)
  | _ => false

/-- Whether some neighbours in a text satisfy a condition. -/
def anyNeighbours (p : Char → Char → Bool) : List Char → Bool
  | a :: b :: cs => p a b || anyNeighbours p (b :: cs)
  | _ => false

/-- What about a text decides how it is written. -/
structure Traits where
  /-- A character at its start or within has a meaning of its own there. -/
  indicators : Bool
  breaks : Bool
  /-- There is a character that has to be spelt by its number. -/
  special : Bool
  tabs : Bool
  /-- A space or a break stands at one of the ends. -/
  looseEnds : Bool
  spaceAtEnd : Bool
  /-- A space follows a break. -/
  breakSpace : Bool
  /-- A break follows a space. -/
  spaceBreak : Bool
deriving DecidableEq

/-- The traits of a text. -/
def traits (cs : List Char) : Traits :=
  let loose (c : Char) : Bool := c = ' ' || breaksLine c
  { indicators :=
      cs.take 3 = ['-', '-', '-'] || cs.take 3 = ['.', '.', '.'] ||
        (match cs with
          | c :: rest => startsWrongly c rest.head?
          | [] => false) ||
        endsWithin cs
    breaks := cs.any breaksLine
    special := cs.any fun c => c ≠ '\t' && !isPrintable c
    tabs := cs.contains '\t'
    looseEnds := cs.head?.any loose || cs.getLast?.any loose
    spaceAtEnd := cs.getLast? = some ' '
    breakSpace := anyNeighbours (fun a b => breaksLine a && b = ' ') cs
    spaceBreak := anyNeighbours (fun a b => a = ' ' && breaksLine b) cs }

/-- Whether a text can be written plainly, as far as its characters go. -/
def Traits.allowPlain (t : Traits) : Bool :=
  !(t.looseEnds || t.breakSpace || t.spaceBreak || t.tabs || t.special || t.breaks || t.indicators)

/-- Whether a text can be written in single quotes. -/
def Traits.allowSingle (t : Traits) : Bool :=
  !(t.breakSpace || t.spaceBreak || t.tabs || t.special)

/-- Whether a text can be written on lines of its own. -/
def Traits.allowLiteral (t : Traits) : Bool := !(t.spaceAtEnd || t.spaceBreak || t.special)

/-- How a text is written. A text with a line feed goes on lines of its own, unless it is a key. -/
def style (key : Bool) (s : String) : Style :=
  let t := traits s.toList
  if s.toList.contains '\n' then
    if t.allowLiteral && !key then .literal else .doubleQuoted
  else if !isPlainText s || (key && t.breaks) then .doubleQuoted
  else if t.allowPlain then .plain
  else if t.allowSingle then .singleQuoted
  else .doubleQuoted

/-! ### Texts -/

/-- A number of spaces. -/
def spaces (n : Nat) : List Char := List.replicate n ' '

/-- A digit in base sixteen, letters in upper case. -/
def upperHexDigit (n : Nat) : Char :=
  if n < 10 then Char.ofNat (48 + n) else Char.ofNat (55 + n)

/-- The digits of a number in base sixteen, as many as wanted. -/
def upperHex (width n : Nat) : List Char :=
  (List.range width).reverse.map fun i => upperHexDigit (n / Nat.pow 16 i % 16)

/-- The name of a character that has one after a backslash. -/
def escapeName? (c : Char) : Option Char :=
  [('\u0000', '0'), ('\u0007', 'a'), ('\u0008', 'b'), ('\t', 't'), ('\n', 'n'), ('\u000b', 'v'),
    ('\u000c', 'f'), ('\r', 'r'), ('\u001b', 'e'), ('"', '"'), ('\\', '\\'), ('\u0085', 'N'),
    ('\u00a0', '_'), ('\u2028', 'L'), ('\u2029', 'P')].lookup c

/-- A character in double quotes. -/
def escape (c : Char) : List Char :=
  if isPrintable c && !isBreak c && c ≠ '"' && c ≠ '\\' then [c]
  else
    match escapeName? c with
    | some name => ['\\', name]
    | none =>
      let n := c.toNat
      if n ≤ 0xff then '\\' :: 'x' :: upperHex 2 n
      else if n ≤ 0xffff then '\\' :: 'u' :: upperHex 4 n
      else '\\' :: 'U' :: upperHex 8 n

/-- A text in double quotes. -/
def doubleQuoted (cs : List Char) : List Char := '"' :: cs.flatMap escape ++ ['"']

/-- The inside of single quotes: quotes are doubled, and what follows a break is indented. -/
def singleInside (indent : Nat) (afterBreak : Bool) : List Char → List Char
  | [] => []
  | c :: cs =>
    if isBreak c then c :: singleInside indent true cs
    else
      (if afterBreak then spaces indent else []) ++
        (if c = '\'' then ['\'', '\''] else [c]) ++ singleInside indent false cs

/-- A text in single quotes. -/
def singleQuoted (indent : Nat) (cs : List Char) : List Char :=
  '\'' :: singleInside indent false cs ++ ['\'']

/-- The lines of a text, each of them indented. The line with the bar ends before the first
character or by the break that stands first. -/
def literalLines (indent : Nat) (atBar afterBreak : Bool) : List Char → List Char
  | [] => []
  | c :: cs =>
    if isBreak c then c :: literalLines indent false true cs
    else
      (if atBar then ['\n'] else []) ++ (if afterBreak then spaces indent else []) ++
        c :: literalLines indent false false cs

/-- The step of the indentation. -/
def indentStep : Nat := 4

/-- What stands behind the bar: the indentation, where the text itself starts with a blank line or a
space, and a sign for breaks at the end other than a single one. -/
def literalHints (cs : List Char) : List Char :=
  (if cs.head?.any fun c => c = ' ' || isBreak c then (Nat.repr indentStep).toList else []) ++
    match cs.reverse with
    | last :: before =>
      if !isBreak last then ['-']
      else if before.head?.all isBreak then ['+']
      else []
    | [] => ['-']

/-- A text on lines of its own, without the break at its end. -/
def literal (indent : Nat) (cs : List Char) : List Char :=
  let lines := '|' :: literalHints cs ++ literalLines indent true true cs
  if lines.getLast? = some '\n' then lines.dropLast else lines

/-- A text, with the indentation of its lines if there are several. -/
def printText (key : Bool) (indent : Nat) (s : String) : List Char :=
  match style key s with
  | .plain => s.toList
  | .singleQuoted => singleQuoted indent s.toList
  | .doubleQuoted => doubleQuoted s.toList
  | .literal => literal indent s.toList

/-! ### Documents -/

/-- The indentation below an indentation. -/
def nextIndent (n : Nat) : Nat := indentStep * ((n + indentStep) / indentStep)

/-- Whether a document is written behind its key on the same line. -/
def isInline : Yaml → Bool
  | .plain _ => true
  | .text _ => true
  | .sequence items => items.isEmpty
  | .mapping members => members.isEmpty

/-- A key of a mapping. -/
def printKey (indent : Nat) : Yaml → List Char
  | .text s => printText true indent s
  | .plain s => s.toList
  | _ => []

/-- Puts pieces on lines of their own, at an indentation. -/
def onLines (indent : Nat) (pieces : List (List Char)) : List Char :=
  List.intercalate ('\n' :: spaces indent) pieces

mutual

/-- The lines of a document at an indentation, without the blanks before the first line and the
break after the last; `below` is the indentation of what belongs to a scalar. -/
def block (indent below : Nat) : Yaml → List Char
  | .plain s => s.toList
  | .text s => printText false below s
  | .sequence items =>
    if items.isEmpty then ['[', ']'] else onLines indent (blockItems indent items)
  | .mapping members =>
    if members.isEmpty then ['\x7b', '\x7d'] else onLines indent (blockMembers indent members)

/-- The items of a sequence. -/
def blockItems (indent : Nat) : List Yaml → List (List Char)
  | [] => []
  | v :: vs => ('-' :: ' ' :: block (indent + 2) (indent + 2) v) :: blockItems indent vs

/-- A member of a mapping. -/
def blockMember (indent : Nat) : Yaml × Yaml → List Char
  | (k, v) =>
    printKey indent k ++ ':' ::
      (if isInline v then ' ' :: block indent (nextIndent indent) v
      else '\n' :: spaces (nextIndent indent) ++ block (nextIndent indent) (nextIndent indent) v)

/-- The members of a mapping. -/
def blockMembers (indent : Nat) : List (Yaml × Yaml) → List (List Char)
  | [] => []
  | m :: ms => blockMember indent m :: blockMembers indent ms

end

/-- The text of a document. -/
def print (v : Yaml) : String := String.ofList (block 0 indentStep v ++ ['\n'])

end Interleaving.Yaml
