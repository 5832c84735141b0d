import Interleaving.Text.Blank
import Interleaving.Text.Letter
import Interleaving.Text.Numeral

/-!
# Tokens of a program file

The first reading of a program file: names, numbers, symbols, line ends and the pieces of quoted
texts. Blanks and comments disappear, but a comment up to the end of a line leaves the line end.

A quoted text is not one token. It may hold code between `${` and a brace, and that code may hold
quoted texts again, so the scanner keeps a stack of **modes**: code, a text in double quotes, or a
text of whole lines that ends at a marker. Escapes are resolved here, and a text that cannot be read
makes the whole file unreadable.
-/

namespace Interleaving.Source

/-- A token of a program file. -/
inductive Token where
  | newline
  | name (s : String)
  | number (literal : String)
  | symbol (s : String)
  | openQuote
  | closeQuote
  /-- The start of a text of whole lines; `flush` asks to take the common indentation off. -/
  | openLines (flush : Bool)
  | closeLines
  /-- A piece of a text. A text of whole lines has at least one piece for every line. -/
  | text (s : String)
  /-- The start of code in a text; `trim` asks to take off the blanks before it. -/
  | openCode (trim : Bool)
  /-- The end of code in a text; `trim` asks to take off the blanks after it. -/
  | closeCode (trim : Bool)
deriving DecidableEq

/-- What the scanner is inside of. -/
inductive Mode where
  /-- Code, with a number of braces that are still open. -/
  | code (braces : Nat)
  /-- A text in double quotes, with the characters read so far in reverse. -/
  | quoted (read : List Char)
  /-- A text of whole lines up to a marker. -/
  | lines (marker : List Char) (atStart : Bool) (read : List Char)

/-! ### Pieces of code -/

/-- The characters after a number's first part that still belong to it, in reverse, and the rest. A
number holds digits, points and exponents, and does not end with a point. `dots` counts the points
that wait for a further part. -/
def numberTail : Nat → List Char → Nat → List Char → List Char × List Char
  | 0, read, dots, cs => (read, List.replicate dots '.' ++ cs)
  | fuel + 1, read, dots, cs =>
    let kept := List.replicate dots '.' ++ read
    let stop := (read, List.replicate dots '.' ++ cs)
    match cs with
    | [] => stop
    | c :: more =>
      if Text.isDigit c then numberTail fuel (c :: kept) 0 more
      else if c = '.' then numberTail fuel read (dots + 1) more
      else if c = 'e' || c = 'E' then
        match more with
        | d :: rest =>
          if Text.isDigit d then numberTail fuel (d :: c :: kept) 0 rest
          else if d = '+' || d = '-' then
            match rest with
            | d' :: rest =>
              if Text.isDigit d' then numberTail fuel (d' :: d :: c :: kept) 0 rest else stop
            | [] => stop
          else stop
        | [] => stop
      else stop

/-- The longest number at the start of the text. -/
def takeNumber (cs : List Char) : String × List Char :=
  let (read, rest) := numberTail (cs.length + 1) [] 0 cs
  (String.ofList read.reverse, rest)

/-- The longest name at the start of the text. -/
def takeName (cs : List Char) : String × List Char :=
  (String.ofList (cs.takeWhile Text.continuesName), cs.dropWhile Text.continuesName)

/-- The symbols of three characters and of two. -/
def longSymbols : List (List Char) :=
  [['.', '.', '.'], ['=', '='], ['!', '='], ['>', '='], ['<', '='], ['&', '&'], ['|', '|'],
    ['=', '>'], [':', ':']]

/-- The symbols of one character, braces apart. -/
def shortSymbols : List Char :=
  ['[', ']', '(', ')', '.', ',', '*', '/', '%', '+', '-', '=', '<', '>', '!', '?', ':']

/-- The longest symbol at the start of the text. -/
def takeSymbol? (cs : List Char) : Option (String × List Char) :=
  match longSymbols.find? fun s => s.isPrefixOf cs with
  | some s => some (String.ofList s, cs.drop s.length)
  | none =>
    match cs with
    | c :: rest => if shortSymbols.contains c then some (c.toString, rest) else none
    | [] => none

/-- The text after a comment that ends with a star and a slash. -/
def afterComment? : List Char → Option (List Char)
  | '*' :: '/' :: cs => some cs
  | _ :: cs => afterComment? cs
  | [] => none

/-- The start of a text of whole lines: two angle brackets, possibly a dash, a marker, a line
end. -/
def takeMarker? (cs : List Char) : Option (Bool × List Char × List Char) :=
  let (flush, cs) := match cs with
    | '-' :: more => (true, more)
    | _ => (false, cs)
  match cs with
  | c :: _ =>
    if Text.startsName c then
      let marker := cs.takeWhile Text.continuesName
      match cs.dropWhile Text.continuesName with
      | '\n' :: rest => some (flush, marker, rest)
      | '\r' :: '\n' :: rest => some (flush, marker, rest)
      | _ => none
    else none
  | [] => none

/-! ### Pieces of text -/

/-- The value of a digit in base sixteen. -/
def hexDigit? (c : Char) : Option Nat :=
  if Text.isDigit c then some (c.toNat - 48)
  else if 'a' ≤ c && c ≤ 'f' then some (c.toNat - 87)
  else if 'A' ≤ c && c ≤ 'F' then some (c.toNat - 55)
  else none

/-- The character with a number in base sixteen. -/
def hexChar? (digits : List Char) : Option Char := do
  let n ← digits.foldlM (fun n c => (hexDigit? c).map fun d => 16 * n + d) 0
  if n < 0xd800 || (0xdfff < n && n < 0x110000) then some (Char.ofNat n) else none

/-- The character of an escape after its backslash, and the rest. -/
def takeEscape? : List Char → Option (Char × List Char)
  | 'n' :: cs => some ('\n', cs)
  | 'r' :: cs => some ('\r', cs)
  | 't' :: cs => some ('\t', cs)
  | '"' :: cs => some ('"', cs)
  | '\\' :: cs => some ('\\', cs)
  | 'u' :: cs =>
    if cs.length < 4 then none else (hexChar? (cs.take 4)).map fun c => (c, cs.drop 4)
  | 'U' :: cs =>
    if cs.length < 8 then none else (hexChar? (cs.take 8)).map fun c => (c, cs.drop 8)
  | _ => none

/-- The token of the characters read, if there are any. -/
def textToken (read : List Char) : List Token :=
  if read.isEmpty then [] else [.text (String.ofList read.reverse)]

/-! ### Scanning -/

/-- The tokens of the text from a mode on, inside the modes `outer`. -/
def scanFrom : Nat → Mode → List Mode → List Char → Option (List Token)
  | 0, _, _, _ => none
  | fuel + 1, .code braces, outer, cs =>
    let go := scanFrom fuel (.code braces) outer
    match cs with
    | [] => if outer.isEmpty then some [] else none
    | ' ' :: cs => go cs
    | '\t' :: cs => go cs
    | '\n' :: cs => (go cs).map (.newline :: ·)
    | '\r' :: '\n' :: cs => (go cs).map (.newline :: ·)
    | '#' :: cs => go (cs.dropWhile (· != '\n'))
    | '/' :: '/' :: cs => go (cs.dropWhile (· != '\n'))
    | '/' :: '*' :: cs => (afterComment? cs).bind go
    | '"' :: cs =>
      (scanFrom fuel (.quoted []) (.code braces :: outer) cs).map (.openQuote :: ·)
    | '{' :: cs => (scanFrom fuel (.code (braces + 1)) outer cs).map (.symbol "\x7b" :: ·)
    | '~' :: '}' :: cs =>
      match outer with
      | mode :: outer =>
        if braces = 0 then (scanFrom fuel mode outer cs).map (.closeCode true :: ·) else none
      | [] => none
    | '}' :: cs =>
      match braces, outer with
      | 0, mode :: outer => (scanFrom fuel mode outer cs).map (.closeCode false :: ·)
      | _, _ => (scanFrom fuel (.code (braces - 1)) outer cs).map (.symbol "\x7d" :: ·)
    | c :: more =>
      if Text.isDigit c then
        let (literal, rest) := takeNumber cs
        (go rest).map (.number literal :: ·)
      else if Text.startsName c then
        let (name, rest) := takeName cs
        (go rest).map (.name name :: ·)
      else
        match (if c = '<' && more.head? = some '<' then takeMarker? (more.drop 1) else none) with
        | some (flush, marker, rest) =>
          (scanFrom fuel (.lines marker true []) (.code braces :: outer) rest).map
            (.openLines flush :: ·)
        | none =>
          match takeSymbol? cs with
          | some (s, rest) => (go rest).map (.symbol s :: ·)
          | none => none
  | fuel + 1, .quoted read, outer, cs =>
    let keep (c : Char) := scanFrom fuel (.quoted (c :: read)) outer
    match cs with
    | [] => none
    | '\n' :: _ => none
    | '\r' :: _ => none
    | '"' :: cs =>
      match outer with
      | mode :: outer =>
        (scanFrom fuel mode outer cs).map fun ts => textToken read ++ .closeQuote :: ts
      | [] => none
    | '$' :: '$' :: '{' :: cs => scanFrom fuel (.quoted ('{' :: '$' :: read)) outer cs
    | '%' :: '%' :: '{' :: cs => scanFrom fuel (.quoted ('{' :: '%' :: read)) outer cs
    | '$' :: '{' :: '~' :: cs =>
      (scanFrom fuel (.code 0) (.quoted [] :: outer) cs).map fun ts =>
        textToken read ++ .openCode true :: ts
    | '$' :: '{' :: cs =>
      (scanFrom fuel (.code 0) (.quoted [] :: outer) cs).map fun ts =>
        textToken read ++ .openCode false :: ts
    | '%' :: '{' :: _ => none
    | '\\' :: cs => (takeEscape? cs).bind fun (c, rest) => keep c rest
    | c :: cs => keep c cs
  | fuel + 1, .lines marker atStart read, outer, cs =>
    let line := cs.takeWhile (· != '\n')
    if atStart && line.length < cs.length && Text.trim line = marker then
      match outer with
      | mode :: outer =>
        (scanFrom fuel mode outer (cs.drop (line.length + 1))).map fun ts =>
          .closeLines :: .newline :: ts
      | [] => none
    else
      let more (read : List Char) := scanFrom fuel (.lines marker false read) outer
      match cs with
      | [] => none
      | '\n' :: cs =>
        (scanFrom fuel (.lines marker true []) outer cs).map fun ts =>
          textToken ('\n' :: read) ++ ts
      | '$' :: '$' :: '{' :: cs => more ('{' :: '$' :: read) cs
      | '%' :: '%' :: '{' :: cs => more ('{' :: '%' :: read) cs
      | '$' :: '{' :: '~' :: cs =>
        (scanFrom fuel (.code 0) (.lines marker false [] :: outer) cs).map fun ts =>
          textToken read ++ .openCode true :: ts
      | '$' :: '{' :: cs =>
        (scanFrom fuel (.code 0) (.lines marker false [] :: outer) cs).map fun ts =>
          textToken read ++ .openCode false :: ts
      | '%' :: '{' :: _ => none
      | c :: cs => more (c :: read) cs

/-- The text without a byte order mark at its start. -/
def withoutMark : List Char → List Char
  | c :: cs => if c.toNat = 0xfeff then cs else c :: cs
  | [] => []

/-- The tokens of a program file, unless it cannot be read. -/
def scan? (s : String) : Option (List Token) :=
  let cs := withoutMark s.toList
  scanFrom (cs.length + 1) (.code 0) [] cs

end Interleaving.Source
