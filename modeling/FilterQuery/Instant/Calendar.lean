/-!
# The Gregorian calendar

Days are counted from 1970-01-01. The count goes by years that begin in March,
so that the leap day is the last of its year; a cycle of 400 years has 146097
days and starts on 1 March of a year divisible by 400.
-/

namespace FilterQuery

/-- A day of the proleptic Gregorian calendar. -/
structure Date where
  year : Int
  month : Nat
  day : Nat
  deriving DecidableEq

namespace Date

/-- The year has a leap day. -/
def isLeap (year : Int) : Bool := year % 4 = 0 && (year % 100 ≠ 0 || year % 400 = 0)

/-- The number of days of a month. -/
def monthLength (year : Int) (month : Nat) : Nat :=
  if month = 2 then (if isLeap year then 29 else 28)
  else if month = 4 ∨ month = 6 ∨ month = 9 ∨ month = 11 then 30
  else 31

/-- The date names a day. -/
def IsValid (date : Date) : Prop :=
  1 ≤ date.month ∧ date.month ≤ 12 ∧ 1 ≤ date.day ∧ date.day ≤ monthLength date.year date.month

instance (date : Date) : Decidable date.IsValid := by unfold IsValid; infer_instance

/-- The days from 1 March of year 0 to 1970-01-01. -/
def epochShift : Int := 719468

/-- The days of a cycle of 400 years. -/
def cycleDays : Int := 146097

/-- The days from 1970-01-01 to a date. -/
def toDays (date : Date) : Int :=
  let year := if date.month ≤ 2 then date.year - 1 else date.year
  let month : Int := (date.month + 9) % 12
  365 * year + year / 4 - year / 100 + year / 400 + (153 * month + 2) / 5 + (date.day - 1) - epochShift

/-- The date a number of days after 1970-01-01. -/
def ofDays (days : Int) : Date :=
  let shifted := days + epochShift
  let cycle := shifted / cycleDays
  let inCycle := shifted % cycleDays
  let century := min (inCycle / 36524) 3
  let inCentury := inCycle - 36524 * century
  let quad := inCentury / 1461
  let inQuad := inCentury - 1461 * quad
  let single := min (inQuad / 365) 3
  let inYear := inQuad - 365 * single
  let march := (5 * inYear + 2) / 153
  let day := inYear - (153 * march + 2) / 5 + 1
  let month := if march < 10 then march + 3 else march - 9
  let year := 400 * cycle + 100 * century + 4 * quad + single
  ⟨if month ≤ 2 then year + 1 else year, month.toNat, day.toNat⟩

end Date

end FilterQuery
