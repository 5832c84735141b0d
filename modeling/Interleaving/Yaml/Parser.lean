import Interleaving.Yaml.Printer

/-!
# Reading YAML

A reader for documents in block style and in flow style, with scalars of all five styles. Anchors,
tags, directives and keys that are not scalars are refused.

In block style the columns decide what belongs together. The reader keeps a `Cursor`, which knows
its column and whether a token has been read on its line; the functions below take the column of the
collection they are in, and what stands further right belongs to it. Scalars over several lines are
folded: a break becomes a space, and further breaks stay (`Interleaving.Yaml.folded`).

Only the first document of a text is read, and what follows it is not looked at.
-/

namespace Interleaving.Yaml

/-! ### Cursors -/

/-- A place in a text. -/
structure Cursor where
  rest : List Char
  column : Nat
  /-- Whether nothing but blanks stands before the place on its line. -/
  fresh : Bool

namespace Cursor

/-- Moves over a character. -/
def step (cur : Cursor) : Cursor :=
  match cur.rest with
  | [] => cur
  | c :: rest =>
    if isBreak c then ⟨rest, 0, true⟩ else ⟨rest, cur.column + 1, cur.fresh && isBlank c⟩

/-- Moves over a number of characters. -/
def advance : Nat → Cursor → Cursor
  | 0, cur => cur
  | n + 1, cur => advance n cur.step

/-- Moves over blanks, breaks and comments to the next token. Tabs are blanks only after a token. -/
def skipFrom (flow : Bool) (column : Nat) (fresh comment : Bool) : List Char → Cursor
  | [] => ⟨[], column, fresh⟩
  | c :: cs =>
    if isBreak c then skipFrom flow 0 true false cs
    else if comment || c = ' ' || (c = '\t' && (flow || !fresh)) then
      skipFrom flow (column + 1) fresh comment cs
    else if c = '#' then skipFrom flow (column + 1) fresh true cs
    else ⟨c :: cs, column, fresh⟩

/-- The next token. -/
def skip (flow : Bool) (cur : Cursor) : Cursor := skipFrom flow cur.column cur.fresh false cur.rest

end Cursor

/-- Whether a character, or the end of the text, cannot continue a word. -/
def endsWord (c : Option Char) : Bool := c.all fun c => isBlank c || isBreak c

/-- Whether a mark between documents stands at a place, or the text ends there. -/
def atDocumentEnd (cur : Cursor) : Bool :=
  cur.rest.isEmpty ||
    (cur.column = 0 && (cur.rest.take 3 = ['-', '-', '-'] || cur.rest.take 3 = ['.', '.', '.']) &&
      endsWord (cur.rest.drop 3).head?)

/-- Whether an item of a sequence starts at a place. -/
def atDash (cur : Cursor) : Bool :=
  match cur.rest with
  | '-' :: cs => endsWord cs.head?
  | _ => false

/-- Whether a key ends at a place. -/
def atColon (cur : Cursor) : Bool :=
  match cur.rest with
  | ':' :: cs => endsWord cs.head?
  | _ => false

/-! ### Scalars -/

/-- What a run of blanks and breaks within a scalar stands for. `continued` tells that the line
before was marked to go on. -/
def folded (continued : Bool) (run : List Char) : List Char :=
  match run.filter isBreak with
  | [] => if continued then [] else run
  | b :: bs =>
    if continued then b :: bs
    else if b = '\n' then (if bs.isEmpty then [' '] else bs)
    else b :: bs

/-- The blanks and breaks at a place. -/
def blankRun (cs : List Char) : List Char := cs.takeWhile fun c => isBlank c || isBreak c

/-- The character of a number in base sixteen. -/
def hexChar? (cs : List Char) : Option Char := do
  let n ← cs.foldlM (fun acc c => do
    let d ← Text.letterDigit? c
    guard (d < 16)
    return 16 * acc + d) 0
  guard (n.isValidChar)
  return Char.ofNat n

/-- The character that an escape stands for, and how many characters the escape has after the
backslash. -/
def escaped? (cs : List Char) : Option (Char × Nat) :=
  match cs with
  | c :: cs =>
    let number (width : Nat) : Option (Char × Nat) := do
      guard (width ≤ cs.length)
      return (← hexChar? (cs.take width), width + 1)
    if c = 'x' then number 2
    else if c = 'u' then number 4
    else if c = 'U' then number 8
    else
      ([('0', '\u0000'), ('a', '\u0007'), ('b', '\u0008'), ('t', '\t'), ('\t', '\t'), ('n', '\n'),
        ('v', '\u000b'), ('f', '\u000c'), ('r', '\r'), ('e', '\u001b'), (' ', ' '), ('"', '"'),
        ('\'', '\''), ('/', '/'), ('\\', '\\'), ('N', '\u0085'), ('_', '\u00a0'), ('L', '\u2028'),
        ('P', '\u2029')].lookup c).map fun c => (c, 1)
  | [] => none

/-- Reads up to the closing quote. Fuel bounds the number of pieces. -/
def quotedFrom? (quote : Char) : Nat → Bool → Cursor → Option (List Char × Cursor)
  | 0, _, _ => none
  | fuel + 1, continued, cur =>
    let run := blankRun cur.rest
    if run.isEmpty && !continued then
      match cur.rest with
      | [] => none
      | c :: cs =>
        if c = quote then
          if quote = '\'' && cs.head? = some '\'' then do
            let (s, cur) ← quotedFrom? quote fuel false (cur.advance 2)
            return ('\'' :: s, cur)
          else some ([], cur.step)
        else if c = '\\' && quote = '"' then
          if cs.head?.any isBreak then quotedFrom? quote fuel true (cur.advance 2)
          else do
            let (c, n) ← escaped? cs
            let (s, cur) ← quotedFrom? quote fuel false (cur.advance (n + 1))
            return (c :: s, cur)
        else do
          let (s, cur) ← quotedFrom? quote fuel false cur.step
          return (c :: s, cur)
    else
      let next := cur.advance run.length
      if atDocumentEnd next then none
      else do
        let (s, cur) ← quotedFrom? quote fuel false next
        return (folded continued run ++ s, cur)

/-- The characters of a plain scalar up to a blank or to what ends it. -/
def plainChunk (flow : Bool) : List Char → List Char
  | [] => []
  | c :: cs =>
    if isBlank c || isBreak c then []
    else if c = ':' &&
      (endsWord cs.head? || (flow && cs.head?.any (",[]\x7b\x7d".toList.contains ·)))
    then []
    else if flow && ",?[]\x7b\x7d".toList.contains c then []
    else c :: plainChunk flow cs

/-- Reads a plain scalar within a collection at a column. Fuel bounds the number of pieces. -/
def plainFrom (flow : Bool) (indent : Int) : Nat → Cursor → List Char × Cursor
  | 0, cur => ([], cur)
  | fuel + 1, cur =>
    let chunk := plainChunk flow cur.rest
    let cur := cur.advance chunk.length
    let run := blankRun cur.rest
    let next := cur.advance run.length
    let crosses := run.any isBreak
    if run.isEmpty || (next.rest.head? = some '#') || atDocumentEnd next ||
        (crosses && !flow && (next.column : Int) ≤ indent) ||
        (plainChunk flow next.rest).isEmpty then (chunk, cur)
    else
      let (s, cur) := plainFrom flow indent fuel next
      (chunk ++ folded false run ++ s, cur)

/-- Whether a plain scalar can start at a place. -/
def startsPlain (flow : Bool) (cs : List Char) : Bool :=
  match cs with
  | [] => false
  | c :: cs =>
    if c = '-' then !endsWord cs.head?
    else if c = '?' || c = ':' then !flow && !endsWord cs.head?
    else !(isBlank c || isBreak c || ",[]\x7b\x7d#&*!|>'\"%@\u0060".toList.contains c)

/-! ### Scalars on lines of their own -/

/-- What stands behind the bar of a block. -/
structure BlockHeader where
  folds : Bool
  /-- What becomes of breaks at the end: all stay, one stays, or none. -/
  keeps : Option Bool
  indent : Option Nat

/-- Reads what stands behind the bar of a block. -/
def blockHeader? (h : BlockHeader) : List Char → Option BlockHeader
  | [] => some h
  | c :: cs =>
    if (c = '+' || c = '-') && h.keeps.isNone then
      blockHeader? { h with keeps := some (c = '+') } cs
    else if '1' ≤ c && c ≤ '9' && h.indent.isNone then
      blockHeader? { h with indent := some (c.toNat - 48) } cs
    else none

/-- The breaks at a place and the blanks between them, up to an indentation if it is known. -/
structure Margin where
  breaks : List Char
  /-- The greatest column that was reached. -/
  widest : Nat
  column : Nat
  rest : List Char

/-- Reads breaks, and blanks up to an indentation; none for a tab in the indentation. -/
def margin? (indent : Option Nat) (column widest : Nat) (breaks : List Char) :
    List Char → Option Margin
  | [] => some ⟨breaks, widest, column, []⟩
  | c :: cs =>
    let within := indent.all fun n => decide (column < n)
    if c = ' ' && within then
      margin? indent (column + 1) (max widest (column + 1)) breaks cs
    else if c = '\t' && within then none
    else if isBreak c then margin? indent 0 widest (breaks ++ [c]) cs
    else some ⟨breaks, widest, column, c :: cs⟩

/-- The lines of a block. `pending` is the break after the line before, `led` tells whether that
line started with a blank. Fuel bounds the number of lines. -/
def blockLines? (folds : Bool) (indent : Nat) :
    Nat → Option Char → Bool → Margin → Option (List Char × Option Char × Margin)
  | 0, _, _, _ => none
  | fuel + 1, pending, led, m =>
    if m.column = indent && !m.rest.isEmpty then do
      let leads := m.rest.head?.any isBlank
      let line := m.rest.takeWhile fun c => !isBreak c
      let joint :=
        if folds && !led && !leads && pending = some '\n' then
          (if m.breaks.isEmpty then [' '] else [])
        else pending.toList
      let after := m.rest.drop line.length
      let next ← margin? (some indent) (if after.isEmpty then indent + line.length else 0) 0 []
        (after.drop 1)
      let (s, last, m') ← blockLines? folds indent fuel after.head? leads next
      return (joint ++ m.breaks ++ line ++ s, last, m')
    else some ([], pending, m)

/-- Reads a scalar on lines of its own, within a collection at a column. -/
def blockScalar? (indent : Int) (cur : Cursor) : Option (String × Cursor) :=
  match cur.rest with
  | [] => none
  | c :: cs => do
    let line := cs.takeWhile fun c => !isBreak c
    let marks := line.takeWhile fun c => !isBlank c
    let tail := (line.drop marks.length).dropWhile isBlank
    guard (tail.isEmpty || tail.head? = some '#')
    let h ← blockHeader? ⟨c = '>', none, none⟩ marks
    let width : Option Nat := h.indent.map fun (n : Nat) =>
      if 0 ≤ indent then (indent + (n : Int)).toNat else n
    let m ← margin? width 0 0 [] (cs.drop (line.length + 1))
    let width := width.getD (max m.widest (max (indent + 1) 1).toNat)
    let (s, last, m') ← blockLines? h.folds width (cs.length + 1) none false m
    let tail := match h.keeps with
      | none => last.toList
      | some true => last.toList ++ m'.breaks
      | some false => []
    return (String.ofList (s ++ tail), ⟨m'.rest, m'.column, true⟩)

/-! ### Documents -/

/-- Reads a scalar that can be a key: its value, and whether it stands on one line. -/
def inlineScalar? (flow : Bool) (indent : Int) (cur : Cursor) : Option (Yaml × Cursor) :=
  match cur.rest with
  | [] => none
  | c :: cs =>
    if c = '"' || c = '\'' then do
      let (s, cur) ← quotedFrom? c (2 * cs.length + 2) false cur.step
      return (.text (String.ofList s), cur)
    else if startsPlain flow cur.rest then
      let (s, cur) := plainFrom flow indent (cs.length + 2) cur
      some (.plain (String.ofList s), cur)
    else none

/-- Whether two places are on the same line, when the second one follows the first. -/
def sameLine (a b : Cursor) : Bool :=
  !(a.rest.take (a.rest.length - b.rest.length)).any isBreak

mutual

/-- Reads what stands between brackets. Fuel bounds the number of tokens. -/
def flowNode? : Nat → Cursor → Option (Yaml × Cursor)
  | 0, _ => none
  | fuel + 1, cur =>
    match cur.rest with
    | '[' :: _ => do
      let (vs, cur) ← flowItems? fuel (cur.step.skip true)
      return (.sequence vs, cur)
    | '\x7b' :: _ => do
      let (ms, cur) ← flowMembers? fuel (cur.step.skip true)
      return (.mapping ms, cur)
    | _ => inlineScalar? true (-1) cur

/-- Reads the items of a sequence in brackets and the closing bracket. -/
def flowItems? : Nat → Cursor → Option (List Yaml × Cursor)
  | 0, _ => none
  | fuel + 1, cur =>
    match cur.rest with
    | ']' :: _ => some ([], cur.step)
    | _ => do
      let (v, cur) ← flowPair? fuel cur
      let v := match v with
        | (k, some v) => .mapping [(k, v)]
        | (v, none) => v
      match cur.rest with
      | ',' :: _ =>
        let (vs, cur) ← flowItems? fuel (cur.step.skip true)
        return (v :: vs, cur)
      | ']' :: _ => return ([v], cur.step)
      | _ => none

/-- Reads the members of a mapping in brackets and the closing bracket. -/
def flowMembers? : Nat → Cursor → Option (List (Yaml × Yaml) × Cursor)
  | 0, _ => none
  | fuel + 1, cur =>
    match cur.rest with
    | '\x7d' :: _ => some ([], cur.step)
    | _ => do
      let ((k, v), cur) ← flowPair? fuel cur
      let m := (k, v.getD (.plain ""))
      match cur.rest with
      | ',' :: _ =>
        let (ms, cur) ← flowMembers? fuel (cur.step.skip true)
        return (m :: ms, cur)
      | '\x7d' :: _ => return ([m], cur.step)
      | _ => none

/-- Reads a document between brackets and, after a colon, another one; then goes to the next
token. -/
def flowPair? : Nat → Cursor → Option ((Yaml × Option Yaml) × Cursor)
  | 0, _ => none
  | fuel + 1, cur => do
    let (k, cur) ← flowNode? fuel cur
    let cur := cur.skip true
    match cur.rest with
    | ':' :: _ =>
      let cur := cur.step.skip true
      match cur.rest with
      | c :: _ =>
        if c = ',' || c = ']' || c = '\x7d' then return ((k, some (.plain "")), cur)
        else
          let (v, cur) ← flowNode? fuel cur
          return ((k, some v), cur.skip true)
      | [] => none
    | _ => return ((k, none), cur)

end

mutual

/-- Reads the document at a token within a collection at a column. `keys` tells whether a collection
in block style may start there. Fuel bounds the number of tokens. -/
def node? : Nat → Int → Bool → Cursor → Option (Yaml × Cursor)
  | 0, _, _, _ => none
  | fuel + 1, indent, keys, cur =>
    if atDash cur then
      if keys then do
        let (vs, cur) ← blockItems? fuel false cur.column cur
        return (.sequence vs, cur)
      else none
    else
      match cur.rest with
      | [] => some (.plain "", cur)
      | c :: _ =>
        if c = '|' || c = '>' then do
          let (s, cur) ← blockScalar? indent cur
          return (.text s, cur)
        else if c = '[' || c = '\x7b' then do
          let (v, next) ← flowNode? fuel cur
          let colon := next.skip false
          if atColon colon && sameLine next colon then none else return (v, next)
        else do
          let (v, next) ← inlineScalar? false indent cur
          let colon := next.skip false
          if atColon colon && sameLine next colon then
            guard (keys && sameLine cur next)
            let (ms, cur) ← members? fuel cur.column v colon
            return (.mapping ms, cur)
          else return (v, next)

/-- Reads the items of a sequence whose dashes stand at a column. `loose` tells that the sequence
belongs to a mapping at the same column, which goes on after it. -/
def blockItems? : Nat → Bool → Nat → Cursor → Option (List Yaml × Cursor)
  | 0, _, _, _ => none
  | fuel + 1, loose, column, cur => do
    let dash := cur.step
    let start := dash.skip false
    let (v, cur) ←
      if atDocumentEnd start || (start.fresh && start.column ≤ column) then some (.plain "", dash)
      else node? fuel column true start
    let next := cur.skip false
    if atDocumentEnd next || (next.fresh && next.column < column) then return ([v], cur)
    else
      guard (next.fresh && next.column = column)
      if atDash next then
        let (vs, cur) ← blockItems? fuel loose column next
        return (v :: vs, cur)
      else
        guard loose
        return ([v], cur)

/-- Reads the members of a mapping whose keys stand at a column, from the colon after its first
key. -/
def members? : Nat → Nat → Yaml → Cursor → Option (List (Yaml × Yaml) × Cursor)
  | 0, _, _, _ => none
  | fuel + 1, column, key, cur => do
    let colon := cur.step
    let start := colon.skip false
    let (v, cur) ←
      if atDocumentEnd start then some (.plain "", colon)
      else if !start.fresh then node? fuel column false start
      else if column < start.column then node? fuel column true start
      else if start.column = column && atDash start then
        (blockItems? fuel true column start).map fun (vs, cur) => (.sequence vs, cur)
      else some (.plain "", colon)
    let next := cur.skip false
    if atDocumentEnd next || (next.fresh && next.column < column) then return ([(key, v)], cur)
    else
      guard (next.fresh && next.column = column && !atDash next)
      let (key', after) ← inlineScalar? false column next
      let colon := after.skip false
      guard (atColon colon && sameLine next colon)
      let (ms, cur) ← members? fuel column key' colon
      return ((key, v) :: ms, cur)

end

/-! ### Texts -/

/-- Gives all breaks of a line the same form. -/
def unifyBreaks : List Char → List Char
  | '\r' :: '\n' :: cs => '\n' :: unifyBreaks cs
  | '\r' :: cs => '\n' :: unifyBreaks cs
  | '\u0085' :: cs => '\n' :: unifyBreaks cs
  | c :: cs => c :: unifyBreaks cs
  | [] => []

/-- Whether a text may hold a character. -/
def isAllowed (c : Char) : Bool :=
  c = '\t' || c = '\r' || c = '\u0085' || isPrintable c || 0x10000 ≤ c.toNat

/-- Reads the first document of a text: `some none` for a text without one. -/
def parse? (s : String) : Option (Option Yaml) := do
  let cs := match s.toList with
    | '\ufeff' :: cs => cs
    | cs => cs
  guard (cs.all isAllowed)
  let fuel := 4 * cs.length + 8
  let start := Cursor.skip false ⟨unifyBreaks cs, 0, true⟩
  if start.rest.isEmpty then return none
  else if start.column = 0 && start.rest.take 3 = ['-', '-', '-'] && atDocumentEnd start then
    let root := (start.advance 3).skip false
    if atDocumentEnd root then return none
    else
      let (v, _) ← node? fuel (-1) root.fresh root
      return some v
  else if atDocumentEnd start then return none
  else
    let (v, _) ← node? fuel (-1) true start
    return some v

end Interleaving.Yaml
