import Interleaving.Sorting
import Interleaving.Text.Blank
import Interleaving.Text.Numeral
import Interleaving.Text.Quoted

/-!
# Event keys

A key names an event by its task and its place in the program order of that task. The event that
stands before all others, and writes the first value of every location, has the key
`Interleaving.Key.init`; every key of a negative task counts as that one.

Keys are written `{task, seq}` and read back by `Interleaving.Key.parse?`; the first event is
written `{null, null}`. `Interleaving.Key.compare` orders keys by task and then by place, the first
event before all.
-/

namespace Interleaving

/-- The name of an event: its task and its place in the program order of the task. -/
structure Key where
  task : Int
  seq : Int
deriving DecidableEq

namespace Key

/-- The key of the event before all others. -/
def init : Key := ⟨-1, -1⟩

/-- Whether the key names the event before all others. -/
def isInit (k : Key) : Bool := k.task < 0

/-- Orders keys by task and then by place, the first event before all. -/
def compare (a b : Key) : Ordering :=
  if a.isInit && b.isInit then .eq
  else if a.isInit then .lt
  else if b.isInit then .gt
  else if a.task ≠ b.task then (if a.task < b.task then .lt else .gt)
  else if a.seq ≠ b.seq then (if a.seq < b.seq then .lt else .gt)
  else .eq

/-- Whether the first key comes strictly before the second. -/
def before (a b : Key) : Bool := a.compare b == .lt

/-- The keys in increasing order. -/
def sort (ks : List Key) : List Key := Sorting.sort (fun a b => a.compare b != .gt) ks

/-- The text of a key. -/
def text (k : Key) : String :=
  if k.isInit then "\x7bnull, null\x7d"
  else "\x7b" ++ Text.decimal k.task ++ ", " ++ Text.decimal k.seq ++ "\x7d"

/-- Why a text is not a key. -/
inductive ParseError where
  | missingBraces
  | componentCount
  | badTask
  | badSeq
deriving DecidableEq

/-- The message about a text that is not a key. -/
def ParseError.message (source : String) (e : ParseError) : String :=
  "invalid key " ++ Text.quote source ++ ": " ++
    match e with
    | .missingBraces => "missing braces"
    | .componentCount => "expected two components"
    | .badTask => "bad task id"
    | .badSeq => "bad sequence number"

/-- The parts between commas. -/
def splitCommas (cs : List Char) : List (List Char) :=
  cs.foldr
    (fun c parts => match parts with
      | part :: more => if c = ',' then [] :: part :: more else (c :: part) :: more
      | [] => [[c]])
    [[]]

/-- What stands between braces. -/
def inner? (cs : List Char) : Option (List Char) :=
  match cs with
  | '\x7b' :: rest => if rest.getLast? = some '\x7d' then some rest.dropLast else none
  | _ => none

/-- Reads a number that is not negative. -/
def component? (cs : List Char) : Option Int := (Text.decimal? cs).filter fun n => decide (0 ≤ n)

/-- Reads a key. White space may stand outside the braces and around both components. -/
def parse? (s : String) : Except ParseError Key :=
  match inner? (Text.trim s.toList) with
  | none => .error .missingBraces
  | some body =>
    match splitCommas body with
    | [a, b] =>
      let a := Text.trim a
      let b := Text.trim b
      if a = "null".toList ∧ b = "null".toList then .ok init
      else
        match component? a with
        | none => .error .badTask
        | some task =>
          match component? b with
          | none => .error .badSeq
          | some seq => .ok ⟨task, seq⟩
    | _ => .error .componentCount

end Key

end Interleaving
