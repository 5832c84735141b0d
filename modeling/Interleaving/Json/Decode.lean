import Interleaving.Dictionary
import Interleaving.Json.Basic

/-!
# Records in JSON

How a record is read from an object: member names match without regard to case, members that the
record does not have are skipped, a member that comes again replaces what was read before, and
`null` leaves a text or a record as it is but empties a dictionary or an optional number. Every
reader takes the value read so far.
-/

namespace Interleaving.Json

/-- A letter regardless of case. The long s and the sign for kelvin count as letters s and k. -/
def foldChar (c : Char) : Char :=
  if c.toNat = 0x17f then 's'
  else if c.toNat = 0x212a then 'k'
  else c.toLower

/-- A member name regardless of case. -/
def foldName (s : String) : String := String.ofList (s.toList.map foldChar)

/-- Reads the members of a record one after the other. -/
def readRecord? {α : Type} (field : String → Json → α → Option α) (v : Json) (old : α) : Option α :=
  match v with
  | .null => some old
  | .object members => members.foldlM (fun acc (name, v) => field (foldName name) v acc) old
  | _ => none

/-- Reads a text. -/
def readString? (v : Json) (old : String) : Option String :=
  match v with
  | .null => some old
  | .text s => some s
  | _ => none

/-- Reads a word of 64 bits. -/
def readInt? (v : Json) (old : Int) : Option Int :=
  match v with
  | .null => some old
  | .number literal => Text.decimal? literal.toList
  | _ => none

/-- Reads an optional word of 64 bits. -/
def readOptionalInt? (v : Json) : Option (Option Int) :=
  match v with
  | .null => some none
  | .number literal => (Text.decimal? literal.toList).map some
  | _ => none

/-- Reads a list; `null` is the list that is not there. -/
def readList? {α : Type} (item : Json → Option α) (v : Json) : Option (Option (List α)) :=
  match v with
  | .null => some none
  | .array items => (items.mapM item).map some
  | _ => none

/-- Reads a dictionary into what was read before; `null` is the dictionary that is not there. -/
def readDictionary? {α : Type} (item : Json → Option α) (v : Json)
    (old : Option (Dictionary α)) : Option (Option (Dictionary α)) :=
  match v with
  | .null => some none
  | .object members =>
    (members.foldlM
      (fun (acc : Dictionary α) (name, v) => (item v).map fun a => acc.set name a)
      (old.getD .empty)).map some
  | _ => none

end Interleaving.Json
