/-
Dates and times in a TOML document: a date, a time, or both with or without an offset.
-/
import BlockDag.Toml.Space

namespace BlockDag.Toml.Moment

/-- Reads `width` decimal digits. -/
def digits (width : Nat) : Reader Nat := fun cs =>
  let ds := cs.take width
  if ds.length = width ∧ ds.all Char.isDigit then
    some (ds.foldl (fun n c => 10 * n + (c.toNat - '0'.toNat)) 0, cs.drop width)
  else none

/-- Reads two digits of a number between `lo` and `hi`. -/
def within (lo hi : Nat) : Reader Nat := fun cs => do
  let (n, rest) ← digits 2 cs
  if lo ≤ n ∧ n ≤ hi then return (n, rest) else none

/-- Whether a year has a 29th of February. -/
def isLeap (year : Nat) : Bool := year % 4 = 0 && (year % 100 ≠ 0 || year % 400 = 0)

/-- How many days a month has. -/
def daysIn (year month : Nat) : Nat :=
  if month = 2 then if isLeap year then 29 else 28
  else if month = 4 ∨ month = 6 ∨ month = 9 ∨ month = 11 then 30
  else 31

/-- Leaves a date aside. -/
def date (cs : List Char) : Option (List Char) := do
  let (year, cs) ← digits 4 cs
  let cs ← expect '-' cs
  let (month, cs) ← within 1 12 cs
  let cs ← expect '-' cs
  let (_, cs) ← within 1 (daysIn year month) cs
  return cs

/-- Leaves a fraction of a second aside, if there is one. -/
def fraction : List Char → Option (List Char)
  | '.' :: rest => if (rest.takeWhile Char.isDigit) = [] then none else some (rest.dropWhile Char.isDigit)
  | cs => some cs

/-- Leaves a time aside. The second may be the sixtieth. -/
def time (cs : List Char) : Option (List Char) := do
  let (_, cs) ← within 0 23 cs
  let cs ← expect ':' cs
  let (_, cs) ← within 0 59 cs
  let cs ← expect ':' cs
  let (_, cs) ← within 0 60 cs
  fraction cs

/-- Leaves an offset aside, if there is one. -/
def offset : List Char → Option (List Char)
  | [] => some []
  | c :: rest =>
    if c = 'Z' ∨ c = 'z' then some rest
    else if c = '+' ∨ c = '-' then do
      let (_, rest) ← within 0 23 rest
      let rest ← expect ':' rest
      let (_, rest) ← within 0 59 rest
      return rest
    else none

/-- Whether characters are nothing but what `part` leaves aside. -/
def isAll (part : List Char → Option (List Char)) (cs : List Char) : Bool := part cs = some []

/-- A time, and an offset after it if there is one. -/
def timeAndOffset (cs : List Char) : Option (List Char) := time cs >>= offset

/-- A date with a time after it. -/
def dateAndTime (cs : List Char) : Option (List Char) := do
  match ← date cs with
  | c :: rest => if c = 'T' ∨ c = 't' then timeAndOffset rest else none
  | [] => none

/-- Whether a word is a date. -/
def isDate (cs : List Char) : Bool := isAll date cs

/-- Whether a word is what may follow a date and a blank. -/
def isTimeOfDay (cs : List Char) : Bool := isAll timeAndOffset cs

/-- Whether a word is a date, a time, or both. -/
def isMoment (cs : List Char) : Bool := isDate cs || isAll time cs || isAll dateAndTime cs

end BlockDag.Toml.Moment
