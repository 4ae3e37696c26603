import FilterQuery.Instant.Calendar
import FilterQuery.Number.Layout
/-!
# Instants

An instant is a number of seconds since 1970-01-01T00:00:00Z and nanoseconds
within the second. The range of instants is part of the type. `toText` writes an
instant to the millisecond, truncated.
-/

namespace FilterQuery

/-- The second in which time begins, -262143-01-01T00:00:00Z. -/
def Instant.firstSecond : Int := -8334601228800

/-- The second in which time ends, +262142-12-31T23:59:59Z. -/
def Instant.lastSecond : Int := 8210266876799

/-- A point in time, in UTC. -/
structure Instant where
  seconds : Int
  nanos : Nat
  first_le_seconds : Instant.firstSecond ≤ seconds
  seconds_le_last : seconds ≤ Instant.lastSecond
  nanos_lt : nanos < 1000000000
  deriving DecidableEq

namespace Instant

theorem eq_of_parts {a b : Instant} (hseconds : a.seconds = b.seconds) (hnanos : a.nanos = b.nanos) : a = b := by
  cases a
  cases b
  cases hseconds
  cases hnanos
  rfl

/-- The instant of seconds and nanoseconds, if it is in range. -/
def ofParts? (seconds : Int) (nanos : Nat) : Option Instant :=
  if h : (firstSecond ≤ seconds ∧ seconds ≤ lastSecond) ∧ nanos < 1000000000 then
    some ⟨seconds, nanos, h.1.1, h.1.2, h.2⟩
  else none

theorem ofParts?_eq_some_iff {seconds : Int} {nanos : Nat} {instant : Instant} :
    ofParts? seconds nanos = some instant ↔ instant.seconds = seconds ∧ instant.nanos = nanos := by
  constructor
  · intro h
    unfold ofParts? at h
    split at h
    · obtain rfl := Option.some.inj h
      exact ⟨rfl, rfl⟩
    · cases h
  · rintro ⟨rfl, rfl⟩
    exact dif_pos ⟨⟨instant.first_le_seconds, instant.seconds_le_last⟩, instant.nanos_lt⟩

/-- The instant a number of seconds later, if it is in range. -/
def shift? (instant : Instant) (delta : Int) : Option Instant :=
  ofParts? (instant.seconds + delta) instant.nanos

/-- The seconds of a day. -/
def daySeconds : Int := 86400

/-- The instant of a day and a time of that day. -/
def ofDateTime? (date : Date) (hour minute second milli : Nat) : Option Instant :=
  ofParts? (date.toDays * daySeconds + (hour * 3600 + minute * 60 + second : Nat)) (milli * 1000000)

/-- The day that an instant falls on. -/
def date (instant : Instant) : Date := .ofDays (instant.seconds / daySeconds)

/-- The seconds from the beginning of the day. -/
def secondOfDay (instant : Instant) : Nat := (instant.seconds % daySeconds).toNat

/-- A year in four digits; later years have a plus sign and earlier ones a minus
sign in front. -/
def yearText (year : Int) : Text :=
  if year < 0 then '-' :: Text.ofNatPadded 4 year.natAbs
  else if 9999 < year then '+' :: Text.ofNat year.natAbs
  else Text.ofNatPadded 4 year.natAbs

/-- The instant in ISO 8601 form with milliseconds. -/
def toText (instant : Instant) : Text :=
  let date := instant.date
  let time := instant.secondOfDay
  let two := Text.ofNatPadded 2
  yearText date.year ++ '-' :: two date.month ++ '-' :: two date.day ++
    'T' :: two (time / 3600) ++ ':' :: two (time / 60 % 60) ++ ':' :: two (time % 60) ++
    '.' :: Text.ofNatPadded 3 (instant.nanos / 1000000) ++ ['Z']

end Instant

end FilterQuery
