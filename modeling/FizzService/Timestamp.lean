/-
Points of time as text: the date and time of day in UTC, a fraction of a second of as few groups
of three digits as are exact, and the offset. The calendar ends, and what lies after its last year
has no text.
-/
import FizzService.Time

namespace FizzService.Timestamp

structure Date where
  year : Nat
  month : Nat
  day : Nat
deriving DecidableEq, Repr

/-- The date of a day, counted from 1970-01-01 on. Years are taken to begin in March, so that a
leap day is the last of its year; 400 of them make an era, and every era has the same days. -/
def dateOf (days : Nat) : Date :=
  let sinceMarch := days + 719468
  let era := sinceMarch / 146097
  let dayOfEra := sinceMarch % 146097
  let yearOfEra := (dayOfEra - dayOfEra / 1460 + dayOfEra / 36524 - dayOfEra / 146096) / 365
  let dayOfYear := dayOfEra - (365 * yearOfEra + yearOfEra / 4 - yearOfEra / 100)
  let month := (5 * dayOfYear + 2) / 153
  let day := dayOfYear - (153 * month + 2) / 5 + 1
  let year := era * 400 + yearOfEra
  if month < 10 then ⟨year, month + 3, day⟩ else ⟨year + 1, month - 9, day⟩

/-- A number with leading zeros up to a width. -/
def padded (width n : Nat) : String :=
  let ds := Nat.toDigits 10 n
  String.ofList (List.replicate (width - ds.length) '0' ++ ds)

/-- The fraction of a second: nothing, or milliseconds, microseconds or nanoseconds. -/
def fraction (nanos : Nat) : String :=
  if nanos = 0 then ""
  else if nanos % 1000000 = 0 then "." ++ padded 3 (nanos / 1000000)
  else if nanos % 1000 = 0 then "." ++ padded 6 (nanos / 1000)
  else "." ++ padded 9 nanos

/-- The last year of the calendar. -/
def lastYear : Nat := 262142

/-- The text of the point of time that lies the given duration after the start of 1970, if the
calendar has its year. Years of more than four digits have a sign. -/
def text? (sinceEpoch : Duration) : Option String :=
  let seconds := sinceEpoch.seconds
  let date := dateOf (seconds / 86400)
  let clock := seconds % 86400
  if date.year ≤ lastYear then
    some
      ((if date.year > 9999 then "+" else "") ++ padded 4 date.year ++ "-" ++
        padded 2 date.month ++ "-" ++ padded 2 date.day ++ "T" ++ padded 2 (clock / 3600) ++ ":" ++
        padded 2 (clock / 60 % 60) ++ ":" ++ padded 2 (clock % 60) ++ fraction sinceEpoch.nanos ++
        "+00:00")
  else none

end FizzService.Timestamp
