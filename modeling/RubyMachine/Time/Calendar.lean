import RubyMachine.Decimal.Layout

/-! Moments as dates and times of day, in nanoseconds since the start of 1970 at longitude zero. -/

namespace RubyMachine.Calendar

structure Date where
  year : Int
  month : Int
  day : Int
  deriving DecidableEq

/-- The date a number of days after the start of 1970. Years are counted from March, so that the day
added in leap years is the last one of a year; 146097 days make 400 years. -/
def dateOfDay (days : Int) : Date :=
  let z := days + 719468
  let era := z.fdiv 146097
  let dayOfEra := z.fmod 146097
  let yearOfEra := (dayOfEra - dayOfEra / 1460 + dayOfEra / 36524 - dayOfEra / 146096) / 365
  let dayOfYear := dayOfEra - (365 * yearOfEra + yearOfEra / 4 - yearOfEra / 100)
  let m := (5 * dayOfYear + 2) / 153
  let month := if m < 10 then m + 3 else m - 9
  { year := yearOfEra + era * 400 + (if month ≤ 2 then 1 else 0)
    month
    day := dayOfYear - (153 * m + 2) / 5 + 1 }

def twoDigits (n : Int) : String := Decimal.padLeft 2 '0' (toString n.toNat)

/-- Year, month and day, then hour, minute and second. -/
def text (nanoseconds : Int) : String :=
  let seconds := nanoseconds.fdiv 1000000000
  let d := dateOfDay (seconds.fdiv 86400)
  let s := seconds.fmod 86400
  Decimal.padLeft 4 '0' (toString d.year) ++ "-" ++ twoDigits d.month ++ "-" ++ twoDigits d.day ++ " " ++
    twoDigits (s / 3600) ++ ":" ++ twoDigits (s / 60 % 60) ++ ":" ++ twoDigits (s % 60)

end RubyMachine.Calendar
