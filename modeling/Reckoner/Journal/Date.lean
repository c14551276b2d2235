import Reckoner.Number.Layout

/-!
# Dates

The civil date and time of a count of seconds, by the Gregorian calendar and without
a time zone. Years are counted from March, so that the leap day is the last of its
year, and in eras of four hundred years, which all have the same number of days.
-/

namespace Reckoner

/-- A whole number filled up with zeros to a width, its sign included. -/
def padded (width : Nat) (n : Int) : String :=
  let digits := natText n.natAbs
  let sign : Text := if n < 0 then ['-'] else []
  Text.toString (sign ++ zeros (width - sign.length - digits.length) ++ digits)

structure Date where
  year : Int
  month : Int
  day : Int
deriving DecidableEq, Repr

namespace Date

def daysPerEra : Int := 146097

/-- Days from the first of March of the year zero to the start of 1970. -/
def epoch : Int := 719468

/-- The date so many days after the start of 1970. -/
def ofDays (days : Int) : Date :=
  let day := days + epoch
  let era := day / daysPerEra
  let ofEra := day % daysPerEra
  let year := (ofEra - ofEra / 1460 + ofEra / 36524 - ofEra / 146096) / 365
  let ofYear := ofEra - (365 * year + year / 4 - year / 100)
  let march := (5 * ofYear + 2) / 153
  let month := if march < 10 then march + 3 else march - 9
  { year := year + era * 400 + (if month ≤ 2 then 1 else 0)
    month
    day := ofYear - (153 * march + 2) / 5 + 1 }

example : ofDays 0 = { year := 1970, month := 1, day := 1 } := by decide
example : ofDays 19675 = { year := 2023, month := 11, day := 14 } := by decide

def secondsPerDay : Int := 86400

/-- The date and the time of day, so many seconds after the start of 1970. -/
def timeText (seconds : Int) : String :=
  let date := ofDays (seconds / secondsPerDay)
  let second := seconds % secondsPerDay
  let day := s!"{date.year}-{padded 2 date.month}-{padded 2 date.day}"
  let time := s!"{padded 2 (second / 3600)}:{padded 2 (second / 60 % 60)}:{padded 2 (second % 60)}"
  s!"{day} {time}"

end Date

end Reckoner
