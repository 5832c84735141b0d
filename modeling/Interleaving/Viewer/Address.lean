import Interleaving.Detail
import Interleaving.Json.Parser
import Interleaving.Text.Quoted

/-!
# Addresses of viewers

A viewer is reached under a URL. It has to have a scheme and a host; whether there is someone is
another question. The parts of a URL are told apart by the first `#`, then by the colon after the
scheme, by the first `?` and by two slashes before the host.
-/

namespace Interleaving.Viewer

/-- The part of a text before the first occurrence of a character, and what follows it if there is
one. -/
def cut (c : Char) (cs : List Char) : List Char × Option (List Char) :=
  match cs.dropWhile (· ≠ c) with
  | [] => (cs, none)
  | _ :: rest => (cs.takeWhile (· ≠ c), some rest)

/-- The part of a text before the last occurrence of a character and the part after it. -/
def cutLast? (c : Char) (cs : List Char) : Option (List Char × List Char) :=
  match cut c cs.reverse with
  | (_, none) => none
  | (after, some before) => some (before.reverse, after.reverse)

/-- Whether a text has the other one at its start. -/
def starts (cs front : List Char) : Bool := cs.take front.length = front

/-- Whether every percent sign is followed by two digits in base sixteen that may stand there. -/
def escapesWell (may : Nat → Bool) : List Char → Bool
  | [] => true
  | '%' :: a :: b :: cs =>
    match Json.hexValue? a, Json.hexValue? b with
    | some x, some y => may (16 * x + y) && escapesWell may cs
    | _, _ => false
  | '%' :: _ => false
  | _ :: cs => escapesWell may cs

/-- A letter or digit. -/
def isAlphanumeric (c : Char) : Bool := c.isAlphanum

/-- Whether a host may hold a character as it is. -/
def inHost (c : Char) : Bool :=
  0x80 ≤ c.toNat || isAlphanumeric c || "-_.~!$&'()*+,;=:[]<>\"".toList.contains c

/-- Whether the name of a user may hold a character. -/
def inUser (c : Char) : Bool := isAlphanumeric c || "-._:~!$&'()*+,;=%@".toList.contains c

/-- Whether what follows a host is a port, or nothing. -/
def isPort : List Char → Bool
  | [] => true
  | ':' :: cs => cs.all Char.isDigit
  | _ => false

/-- Whether a host is well formed without a zone: only characters beyond ASCII, and the percent
sign, are escaped. -/
def isHostText (cs : List Char) : Bool :=
  cs.all (fun c => c = '%' || inHost c) && escapesWell (fun n => 0x80 ≤ n || n = 0x25) cs

/-- The place at which a zone starts. -/
def zoneAt? : List Char → Option Nat
  | [] => none
  | c :: cs => if starts (c :: cs) ['%', '2', '5'] then some 0 else (zoneAt? cs).map (· + 1)

/-- Whether a zone is well formed. -/
def isZoneText (cs : List Char) : Bool :=
  cs.all (fun c => c = '%' || inHost c) &&
    escapesWell (fun n => n = 0x25 || n = 0x20 || inHost (Char.ofNat n) && n < 0x80) cs

/-- Whether a host with its port is well formed. -/
def isHost (cs : List Char) : Bool :=
  if cs.head? = some '[' then
    match cutLast? ']' cs with
    | none => false
    | some (inside, port) =>
      isPort port &&
        match zoneAt? inside with
        | none => isHostText cs
        | some n =>
          isHostText (inside.take n) && isZoneText (inside.drop n) && isHostText (']' :: port)
  else
    (match cutLast? ':' cs with
      | some (_, port) => port.all Char.isDigit
      | none => true) && isHostText cs

/-- Whether a user and a host are well formed; the host. -/
def authority? (cs : List Char) : Option (List Char) :=
  match cutLast? '@' cs with
  | none => if isHost cs then some cs else none
  | some (user, host) =>
    if isHost host && user.all inUser && escapesWell (fun _ => true) user then some host else none

/-- What of a URL matters here. -/
structure Address where
  scheme : String
  host : String
deriving DecidableEq

/-- Takes the scheme off; nothing if a URL starts with the colon after it. -/
def scheme? (cs : List Char) : Option (List Char × List Char) :=
  let front := cs.takeWhile fun c => c.isAlphanum || c = '+' || c = '-' || c = '.'
  match cs.drop front.length with
  | ':' :: rest =>
    match front with
    | [] => none
    | c :: _ => if c.isAlpha then some (front, rest) else some ([], cs)
  | _ => some ([], cs)

/-- Reads what follows the scheme: the host. -/
def hierarchy? (scheme rest : List Char) : Option (List Char) :=
  let pathWell (path : List Char) : Bool := escapesWell (fun _ => true) path
  if !starts rest ['/'] then
    if !scheme.isEmpty then some []
    else if (cut '/' rest).1.contains ':' || !pathWell rest then none
    else some []
  else if (!scheme.isEmpty || !starts rest ['/', '/', '/']) && starts rest ['/', '/'] then
    let authority := (rest.drop 2).takeWhile (· ≠ '/')
    let path := (rest.drop 2).dropWhile (· ≠ '/')
    if pathWell path then authority? authority else none
  else if pathWell rest then some []
  else none

/-- Reads a URL. -/
def Address.ofText? (url : String) : Option Address := do
  let (front, fragment) := cut '#' url.toList
  guard (front.all fun c => ' ' ≤ c && c ≠ '\u007f')
  guard (escapesWell (fun _ => true) (fragment.getD []))
  let (scheme, rest) ← scheme? front
  let host ← hierarchy? scheme (cut '?' rest).1
  return ⟨String.ofList scheme, String.ofList host⟩

/-- What is wrong with the address of a viewer. -/
inductive AddressFault where
  | malformed
  | incomplete (url : String)
deriving DecidableEq

/-- The message about an address that cannot be used. -/
def AddressFault.message (say : Wording) : AddressFault → String
  | .malformed => "failed to parse URL: " ++ say (.document "the address is not well formed")
  | .incomplete url => "visualizer URL " ++ Text.quote url ++ " needs a scheme and a host"

/-- What is wrong with an address, if anything is. -/
def addressFault? (url : String) : Option AddressFault :=
  match Address.ofText? url with
  | none => some .malformed
  | some a => if a.scheme = "" || a.host = "" then some (.incomplete url) else none

end Interleaving.Viewer
