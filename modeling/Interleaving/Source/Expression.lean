import Interleaving.Program.Expression
import Interleaving.Source.Token

/-!
# Reading expressions

From tokens to expressions. A conditional binds weakest, then six levels of operators with two
operands that associate to the left, then negation, and access to parts binds strongest. Line ends
matter only where the surrounding blocks end at them: inside brackets of any sort they are skipped.

Every reader takes the tokens from its place on and gives what it read with the tokens that are
left. The readers call each other, so they share a bound on their depth, which the number of tokens
provides.
-/

namespace Interleaving.Source

/-- The tokens from the next one that counts on. -/
def skip (lines : Bool) (ts : List Token) : List Token :=
  if lines then ts else ts.dropWhile (· == .newline)

/-- The operators of each level, weakest first. -/
def operatorLevels : List (List (String × BinaryOperator)) :=
  [[("||", .or)], [("&&", .and)], [("==", .equal), ("!=", .notEqual)],
    [(">", .greater), (">=", .greaterOrEqual), ("<", .less), ("<=", .lessOrEqual)],
    [("+", .add), ("-", .subtract)], [("*", .multiply), ("/", .divide), ("%", .modulo)]]

/-! ### Texts with code in them -/

/-- A part of a text: characters, or code with the wishes to trim the characters before and
after. -/
inductive Part where
  | text (s : String)
  | code (trimBefore trimAfter : Bool) (e : Expression)

/-- The parts with the wished-for blanks taken off; `trim` says whether the part before wishes
it. -/
def trimParts (trim : Bool) : List Part → List Part
  | [] => []
  | .text s :: rest =>
    let cs := if trim then Text.trimLeft s.toList else s.toList
    let cs := match rest with
      | .code true _ _ :: _ => Text.trimRight cs
      | _ => cs
    .text (String.ofList cs) :: trimParts false rest
  | .code before after e :: rest => .code before after e :: trimParts after rest

/-- The indentation of every line that has one: of each part that starts a line, unless the line is
blank. Code at the start of a line has none. -/
def indents (atStart : Bool) : List Part → List Nat
  | [] => []
  | .code _ _ _ :: rest => (if atStart then [0] else []) ++ indents false rest
  | .text s :: rest =>
    let cs := s.toList
    let ends := cs.getLast? == some '\n'
    let trimmed := Text.trimLeft cs
    let own := if !atStart || (trimmed.isEmpty && ends) then [] else [cs.length - trimmed.length]
    own ++ indents ends rest

/-- Takes an indentation off every line that is not blank. -/
def unindent (n : Nat) (atStart : Bool) : List Part → List Part
  | [] => []
  | .code before after e :: rest => .code before after e :: unindent n false rest
  | .text s :: rest =>
    let cs := s.toList
    let ends := cs.getLast? == some '\n'
    let cs := if !atStart || ((Text.trimLeft cs).isEmpty && ends) then cs else cs.drop n
    .text (String.ofList cs) :: unindent n ends rest

/-- Takes the common indentation off all lines. -/
def flushLines (parts : List Part) : List Part :=
  match indents true parts with
  | [] => parts
  | n :: ns => unindent (ns.foldl min n) true parts

/-- The expression of a part. -/
def Part.expression : Part → Expression
  | .text s => .literal (.text s)
  | .code _ _ e => e

/-- The expression of a text. A text that is nothing but code is that code. -/
def ofParts (flush : Bool) (parts : List Part) : Expression :=
  let parts := trimParts false parts
  let parts := if flush then flushLines parts else parts
  match parts with
  | [] => .literal (.text "")
  | [part] => part.expression
  | parts => .template (parts.map Part.expression)

/-! ### Expressions -/

/-- The key of a member of an object: a bare name stands for itself. -/
def memberKey (bare : Bool) (key : Expression) : Expression :=
  match key with
  | .register name => if bare then .literal (.text name) else key
  | .literal .null => if bare then .literal (.text "null") else key
  | _ => key

/-- The expression of a name that calls nothing. -/
def ofName (name : String) : Expression :=
  if name = "true" then .literal (.bool true)
  else if name = "false" then .literal (.bool false)
  else if name = "null" then .literal .null
  else .register name

mutual

/-- Reads an expression. -/
def expression? : Nat → Bool → List Token → Option (Expression × List Token)
  | 0, _, _ => none
  | fuel + 1, lines, ts => do
    let (condition, ts) ← operators? fuel lines operatorLevels ts
    match skip lines ts with
    | .symbol "?" :: rest =>
      let (yes, rest) ← expression? fuel lines rest
      match skip lines rest with
      | .symbol ":" :: rest =>
        let (no, rest) ← expression? fuel lines rest
        return (.conditional condition yes no, rest)
      | _ => none
    | _ => return (condition, ts)

/-- Reads operands with operators of the given levels between them. -/
def operators? : Nat → Bool → List (List (String × BinaryOperator)) → List Token →
    Option (Expression × List Token)
  | 0, _, _, _ => none
  | fuel + 1, lines, [], ts => operand? fuel lines ts
  | fuel + 1, lines, level :: levels, ts => do
    let (left, ts) ← operators? fuel lines levels ts
    moreOperands? fuel lines level levels left ts

/-- Reads further operands of one level. -/
def moreOperands? : Nat → Bool → List (String × BinaryOperator) →
    List (List (String × BinaryOperator)) → Expression → List Token →
    Option (Expression × List Token)
  | 0, _, _, _, _, _ => none
  | fuel + 1, lines, level, levels, left, ts =>
    match skip lines ts with
    | .symbol s :: rest =>
      match level.lookup s with
      | some op => do
        let (right, rest) ← operators? fuel lines levels rest
        moreOperands? fuel lines level levels (.binary op left right) rest
      | none => some (left, ts)
    | _ => some (left, ts)

/-- Reads an operand with the access to its parts. -/
def operand? : Nat → Bool → List Token → Option (Expression × List Token)
  | 0, _, _ => none
  | fuel + 1, lines, ts => do
    let (e, ts) ← term? fuel lines ts
    access? fuel lines e ts

/-- Reads access to the parts of an expression. -/
def access? : Nat → Bool → Expression → List Token → Option (Expression × List Token)
  | 0, _, _, _ => none
  | fuel + 1, lines, e, ts =>
    match skip lines ts with
    | .symbol "." :: rest =>
      match skip lines rest with
      | .name name :: rest => access? fuel lines (.attribute e name) rest
      | .number literal :: rest =>
        if literal.toList.contains '.' then none
        else do
          let n ← Number.ofText? literal.toList
          access? fuel lines (.index e (.literal (.number n))) rest
      | _ => none
    | .symbol "[" :: rest => do
      let (key, rest) ← expression? fuel false rest
      match skip false rest with
      | .symbol "]" :: rest => access? fuel lines (.index e key) rest
      | _ => none
    | _ => some (e, ts)

/-- Reads an expression without operators between operands. -/
def term? : Nat → Bool → List Token → Option (Expression × List Token)
  | 0, _, _ => none
  | fuel + 1, lines, ts =>
    match skip lines ts with
    | .symbol "(" :: rest => do
      let (e, rest) ← expression? fuel false rest
      match skip false rest with
      | .symbol ")" :: rest => return (e, rest)
      | _ => none
    | .number literal :: rest => do
      let n ← Number.ofText? literal.toList
      return (.literal (.number n), rest)
    | .name name :: rest =>
      match skip lines rest with
      | .symbol "(" :: rest => do
        let (arguments, rest) ← arguments? fuel [] rest
        return (.call name arguments, rest)
      | _ => some (ofName name, rest)
    | .openQuote :: rest => do
      let (parts, rest) ← parts? fuel [] rest
      return (ofParts false parts, rest)
    | .openLines flush :: rest => do
      let (parts, rest) ← parts? fuel [] rest
      return (ofParts flush parts, rest)
    | .symbol "-" :: rest => do
      let (e, rest) ← operand? fuel lines rest
      return (.unary .negate e, rest)
    | .symbol "!" :: rest => do
      let (e, rest) ← operand? fuel lines rest
      return (.unary .not e, rest)
    | .symbol "[" :: rest => do
      let (items, rest) ← items? fuel [] rest
      return (.tuple items, rest)
    | .symbol "\x7b" :: rest => do
      let (members, rest) ← members? fuel [] rest
      return (.object members, rest)
    | _ => none

/-- Reads the arguments of a call up to the closing parenthesis. -/
def arguments? : Nat → List Expression → List Token → Option (List Expression × List Token)
  | 0, _, _ => none
  | fuel + 1, done, ts =>
    match skip false ts with
    | .symbol ")" :: rest => some (done.reverse, rest)
    | ts => do
      let (e, rest) ← expression? fuel false ts
      match skip false rest with
      | .symbol "," :: rest => arguments? fuel (e :: done) rest
      | .symbol ")" :: rest => return ((e :: done).reverse, rest)
      | .symbol "..." :: rest =>
        match skip false rest with
        | .symbol ")" :: rest => return ((e :: done).reverse, rest)
        | _ => none
      | _ => none

/-- Reads the items of a tuple up to the closing bracket. -/
def items? : Nat → List Expression → List Token → Option (List Expression × List Token)
  | 0, _, _ => none
  | fuel + 1, done, ts =>
    match skip false ts with
    | .symbol "]" :: rest => some (done.reverse, rest)
    | ts => do
      let (e, rest) ← expression? fuel false ts
      match skip false rest with
      | .symbol "," :: rest => items? fuel (e :: done) rest
      | .symbol "]" :: rest => return ((e :: done).reverse, rest)
      | _ => none

/-- Reads the members of an object up to the closing brace. Members end at commas or line ends. -/
def members? : Nat → List (Expression × Expression) → List Token →
    Option (List (Expression × Expression) × List Token)
  | 0, _, _ => none
  | fuel + 1, done, ts =>
    match ts with
    | .newline :: rest => members? fuel done rest
    | .symbol "\x7d" :: rest => some (done.reverse, rest)
    | ts => do
      let bare := ts.head? != some (.symbol "(")
      let (key, rest) ← expression? fuel true ts
      match rest with
      | .symbol s :: rest =>
        if s = "=" || s = ":" then
          let (value, rest) ← expression? fuel true rest
          let done := (memberKey bare key, value) :: done
          match rest with
          | .symbol "\x7d" :: rest => return (done.reverse, rest)
          | .symbol "," :: rest => members? fuel done rest
          | .newline :: rest => members? fuel done rest
          | _ => none
        else none
      | _ => none

/-- Reads the parts of a text up to its end. -/
def parts? : Nat → List Part → List Token → Option (List Part × List Token)
  | 0, _, _ => none
  | fuel + 1, done, ts =>
    match ts with
    | .closeQuote :: rest => some (done.reverse, rest)
    | .closeLines :: rest => some (done.reverse, rest)
    | .text s :: rest => parts? fuel (.text s :: done) rest
    | .openCode before :: rest => do
      let (e, rest) ← expression? fuel false rest
      match skip false rest with
      | .closeCode after :: rest => parts? fuel (.code before after e :: done) rest
      | _ => none
    | _ => none

end

/-- A bound on the depth of the readers: between two tokens they go through all levels once. -/
def depth (ts : List Token) : Nat := 16 * (ts.length + 2)

/-- Reads a text that is nothing but an expression. -/
def readExpression? (s : String) : Option Expression := do
  let ts ← scan? s
  let (e, rest) ← expression? (depth ts) false ts
  if (skip false rest).isEmpty then some e else none

end Interleaving.Source
