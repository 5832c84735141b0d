import Interleaving.Text.Numeral

/-!
# Moments

A moment is a number of seconds since the first of January 1970 in universal time, and a part of a
second in nanoseconds. It is written as a date and a time of day in the calendar that is in use,
which is continued in both directions without end.

The calendar repeats itself after 400 years, which have 146 097 days. Counting a year from March
puts the day that only some years have at the end of the year, and then the lengths of the months
follow a rule (`Interleaving.Date.monthStart`): `(153 * m + 2) / 5` days stand before the `m`-th
month.
-/

namespace Interleaving

/-- A day of the calendar. Months and days are counted from one. -/
structure Date where
  year : Int
  month : Nat
  day : Nat
deriving DecidableEq

namespace Date

/-- The days of 400 years. -/
def cycleDays : Int := 146097

/-- The days from the first of March of the year 0 to the first of January 1970. -/
def epochDays : Int := 719468

/-- The days of a year that begins in March before the month with a number, counted from zero. -/
def monthStart (m : Nat) : Nat := (153 * m + 2) / 5

/-- The day that is `n` days after the first of January 1970. -/
def ofDays (n : Int) : Date :=
  let z := n + epochDays
  let cycle := z.fdiv cycleDays
  let d := (z.fmod cycleDays).toNat
  let y := (d - d / 1460 + d / 36524 - d / 146096) / 365
  let d := d - (365 * y + y / 4 - y / 100)
  let m := (5 * d + 2) / 153
  let month := if m < 10 then m + 3 else m - 9
  { year := cycle * 400 + y + (if month ≤ 2 then 1 else 0)
    month
    day := d - monthStart m + 1 }

/-- The number of days from the first of January 1970 to a day. -/
def toDays (x : Date) : Int :=
  let y := if x.month ≤ 2 then x.year - 1 else x.year
  let cycle := y.fdiv 400
  let y := (y.fmod 400).toNat
  let m := if x.month ≤ 2 then x.month + 9 else x.month - 3
  cycle * cycleDays + ((365 * y + y / 4 - y / 100 + monthStart m + (x.day - 1) : Nat) : Int) -
    epochDays

/-- Whether a year has 366 days. -/
def isLeap (year : Int) : Bool := year % 4 == 0 && (year % 100 != 0 || year % 400 == 0)

/-- The number of days of a month. -/
def daysIn (year : Int) (month : Nat) : Nat :=
  if month = 2 then (if isLeap year then 29 else 28)
  else if month = 4 || month = 6 || month = 9 || month = 11 then 30
  else 31

/-- Whether the calendar has such a day. -/
def isValid (x : Date) : Bool :=
  1 ≤ x.month && x.month ≤ 12 && 1 ≤ x.day && x.day ≤ daysIn x.year x.month

end Date

/-- A moment. -/
structure Moment where
  /-- Seconds since the first of January 1970. -/
  seconds : Int
  nanoseconds : Nat
deriving DecidableEq

namespace Moment

/-- The first moment of the year 1, which stands for a moment that is not known. -/
def unknown : Moment := ⟨-62135596800, 0⟩

/-- A numeral with leading zeros up to a width. -/
def padded (width n : Nat) : String :=
  let digits := Nat.repr n
  String.ofList (List.replicate (width - digits.length) '0') ++ digits

/-- A year with four digits or more. -/
def yearText (year : Int) : String :=
  if year < 0 then "-" ++ padded 4 year.natAbs else padded 4 year.natAbs

/-- The digits of a part of a second after the point, without zeros at the end; nothing for none. -/
def fractionText (nanoseconds : Nat) : String :=
  if nanoseconds = 0 then ""
  else
    let digits := ((padded 9 nanoseconds).toList.reverse.dropWhile (· = '0')).reverse
    "." ++ String.ofList digits

/-- The moment as a date and a time of day in universal time. -/
def text (m : Moment) : String :=
  let date := Date.ofDays (m.seconds.fdiv 86400)
  let s := (m.seconds.fmod 86400).toNat
  yearText date.year ++ "-" ++ padded 2 date.month ++ "-" ++ padded 2 date.day ++ "T" ++
    padded 2 (s / 3600) ++ ":" ++ padded 2 (s / 60 % 60) ++ ":" ++ padded 2 (s % 60) ++
    fractionText m.nanoseconds ++ "Z"

/-! ### Reading -/

/-- Takes a numeral that has between `least` and `most` digits; as many as there are. -/
def numeral? (least most : Nat) (cs : List Char) : Option (Nat × List Char) := do
  let digits := (cs.take most).takeWhile Text.isDigit
  guard (least ≤ digits.length)
  return (← Text.natural? digits, cs.drop digits.length)

/-- Takes a character. -/
def char? (c : Char) : List Char → Option (List Char)
  | d :: cs => if c = d then some cs else none
  | [] => none

/-- Takes a date; months and days have `least` digits or two. -/
def date? (least : Nat) (cs : List Char) : Option (Date × List Char) := do
  let (year, cs) ← numeral? 4 4 cs
  let (month, cs) ← numeral? least 2 (← char? '-' cs)
  let (day, cs) ← numeral? least 2 (← char? '-' cs)
  let date : Date := ⟨year, month, day⟩
  guard date.isValid
  return (date, cs)

/-- Takes a time of day in seconds; its parts have `least` digits or two. -/
def clock? (least : Nat) (cs : List Char) : Option (Nat × List Char) := do
  let (hour, cs) ← numeral? least 2 cs
  let (minute, cs) ← numeral? least 2 (← char? ':' cs)
  let (second, cs) ← numeral? least 2 (← char? ':' cs)
  guard (hour < 24 && minute < 60 && second < 60)
  return (3600 * hour + 60 * minute + second, cs)

/-- Takes a part of a second, if there is one after one of the marks; digits after the ninth are
passed over. -/
def fraction (marks : List Char) (cs : List Char) : Nat × List Char :=
  match cs with
  | c :: rest =>
    let digits := rest.takeWhile Text.isDigit
    if marks.contains c && !digits.isEmpty then
      let nine := (digits ++ List.replicate 9 '0').take 9
      ((Text.natural? nine).getD 0, rest.drop digits.length)
    else (0, cs)
  | [] => (0, cs)

/-- Takes the distance of a zone from universal time, in seconds, with limits on hours and
minutes. -/
def zone? (mostHours mostMinutes : Nat) (cs : List Char) : Option (Int × List Char) :=
  match cs with
  | 'Z' :: cs => some (0, cs)
  | c :: cs => do
    guard (c = '+' || c = '-')
    let (hours, cs) ← numeral? 2 2 cs
    let (minutes, cs) ← numeral? 2 2 (← char? ':' cs)
    guard (hours ≤ mostHours && minutes ≤ mostMinutes)
    let distance : Int := (3600 * hours + 60 * minutes : Nat)
    return (if c = '-' then -distance else distance, cs)
  | [] => none

/-- The moment of a date, a time of day, a part of a second and a distance from universal time. -/
def of (date : Date) (clock nanoseconds : Nat) (distance : Int) : Moment :=
  ⟨date.toDays * 86400 + clock - distance, nanoseconds⟩

/-- Reads a moment in the form in which `Interleaving.Moment.text` writes it, in any zone. -/
def ofText? (s : String) : Option Moment := do
  let (date, cs) ← date? 2 s.toList
  let (clock, cs) ← clock? 2 (← char? 'T' cs)
  let (nanoseconds, cs) := fraction ['.'] cs
  let (distance, cs) ← zone? 23 59 cs
  guard cs.isEmpty
  return of date clock nanoseconds distance

/-- Reads a moment as people write it: leading zeros may be left out, a small letter or blanks may
stand before the time of day, and without a time of day the moment is the beginning of the day. -/
def ofCasualText? (s : String) : Option Moment := do
  let (date, cs) ← date? 1 s.toList
  match cs with
  | [] => return of date 0 0 0
  | c :: cs =>
    if c = 'T' || c = 't' then
      let (clock, cs) ← clock? 1 cs
      let (nanoseconds, cs) := fraction ['.', ','] cs
      let (distance, cs) ← zone? 24 60 cs
      guard cs.isEmpty
      return of date clock nanoseconds distance
    else if c = ' ' then
      let (clock, cs) ← clock? 1 (cs.dropWhile (· = ' '))
      let (nanoseconds, cs) := fraction ['.', ','] cs
      guard cs.isEmpty
      return of date clock nanoseconds 0
    else none

end Moment

end Interleaving
