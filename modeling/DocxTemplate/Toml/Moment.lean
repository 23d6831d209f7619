import DocxTemplate.Text.Reader

/-! # Dates and times of TOML

    A moment is a date, a time, or both; only with both it may have an offset. Days exist
    in their month, hours run to 23, minutes to 59 and seconds to 60. Digits of a second
    beyond the ninth are dropped.
-/

namespace DocxTemplate.Toml

/-- A day of the calendar. -/
structure Date where
  year : Nat
  month : Nat
  day : Nat
  deriving DecidableEq, Repr

/-- A time of the day. -/
structure Time where
  hour : Nat
  minute : Nat
  second : Nat
  nanosecond : Nat
  deriving DecidableEq, Repr

/-- A date, a time or both, with the minutes that local time is ahead. -/
structure Moment where
  date? : Option Date
  time? : Option Time
  offset? : Option Int
  deriving DecidableEq, Repr

namespace Moment

/-- The number of days in a month. -/
def daysIn (year month : Nat) : Nat :=
  if month = 2 then
    if year % 4 = 0 ∧ (year % 100 ≠ 0 ∨ year % 400 = 0) then 29 else 28
  else if month ∈ [4, 6, 9, 11] then 30
  else 31

/-- The number that decimal digits form. -/
def ofDigits (ds : List Char) : Nat :=
  ds.foldl (fun n d => n * 10 + (d.toNat - '0'.toNat)) 0

/-- Takes a number of `width` digits between two bounds. -/
def number (width low high : Nat) : Reader Nat := do
  let n := ofDigits (← Reader.exactly width Char.isDigit)
  Reader.check (low ≤ n && n ≤ high)
  return n

/-- Takes a date. -/
def readDate : Reader Date := do
  let year ← number 4 0 9999
  Reader.char '-'
  let month ← number 2 1 12
  Reader.char '-'
  let day ← number 2 1 (daysIn year month)
  return { year, month, day }

/-- Takes the digits behind the point of a second. -/
def readNanosecond : Reader Nat := do
  Reader.char '.'
  let first ← Reader.one Char.isDigit
  let digits := (first :: (← Reader.span Char.isDigit)).take 9
  return ofDigits digits * Nat.pow 10 (9 - digits.length)

/-- Takes a time. -/
def readTime : Reader Time := do
  let hour ← number 2 0 23
  Reader.char ':'
  let minute ← number 2 0 59
  Reader.char ':'
  let second ← number 2 0 60
  let nanosecond ← Reader.maybe readNanosecond
  return { hour, minute, second, nanosecond := nanosecond.getD 0 }

/-- Takes an offset. -/
def readOffset : Reader Int := do
  let sign ← Reader.one fun c => c == 'Z' || c == 'z' || c == '+' || c == '-'
  if sign == 'Z' || sign == 'z' then return 0
  else
    let hour ← number 2 0 23
    Reader.char ':'
    let minute ← number 2 0 59
    let minutes : Int := hour * 60 + minute
    return if sign == '-' then -minutes else minutes

/-- Takes a time behind a date. -/
def readTimeOfDate : Reader (Time × Option Int) := do
  let _ ← Reader.one fun c => c == 'T' || c == 't' || c == ' '
  let time ← readTime
  return (time, ← Reader.maybe readOffset)

/-- Takes a moment that starts with a date. -/
def readFull : Reader Moment := do
  let date ← readDate
  match ← Reader.maybe readTimeOfDate with
  | none => return { date? := some date, time? := none, offset? := none }
  | some (time, offset?) => return { date? := some date, time? := some time, offset? }

/-- Takes a moment. -/
def read : Reader Moment :=
  readFull <|> do return { date? := none, time? := some (← readTime), offset? := none }

end Moment

end DocxTemplate.Toml
