import FilterQuery.Instant.Basic
import FilterQuery.Number.Basic
/-!
# Dates relative to the clock

`now` is the clock, and `now+N` or `now-N` the clock shifted by `N` days, or by
the unit that follows: days, hours, minutes or seconds. The count of units, its
seconds and its milliseconds are integers of 64 bits. A shift that does not fit,
that leaves the range of instants, or whose digits are not ASCII, is no shift.
-/

namespace FilterQuery

namespace Instant

/-- The seconds of the unit behind an offset; no unit means days. -/
def unitSeconds? (unit : Text) : Option Nat :=
  if unit = [] ∨ unit = ['d'] then some 86400
  else if unit = ['h'] then some 3600
  else if unit = ['m'] then some 60
  else if unit = ['s'] then some 1
  else none

/-- The integer if it fits into 64 bits. -/
def fit? (n : Int) : Option Int :=
  if Number.minInteger ≤ n ∧ n ≤ Number.maxInteger then some n else none

/-- The seconds of a duration of units, which has to fit in seconds and in milliseconds. -/
def duration? (count : Int) (unit : Nat) : Option Int := do
  let seconds ← fit? (count * unit)
  let _ ← fit? (seconds * 1000)
  some seconds

/-- The count that an offset names, with its sign. -/
def offsetCount? (negative : Bool) (digits : Text) : Option Int := do
  let count : Int ← Text.natValue? 10 digits
  fit? (if negative then -count else count)

/-- The clock shifted by digits of a unit, if it can be. -/
def shifted (clock : Instant) (negative : Bool) (digits : Text) (unit : Nat) : Instant :=
  let instant? := do
    let seconds ← duration? (← offsetCount? negative digits) unit
    clock.shift? seconds
  instant?.getD clock

/-- The instant that an offset with a sign names. -/
def ofOffset? (clock : Instant) (negative : Bool) (offset : Text) : Option Instant :=
  let (digits, unit) := offset.span isDecimalDigit
  if digits = [] then none else (unitSeconds? unit).map (clock.shifted negative digits ·)

/-- The instant that a text names relative to the clock. -/
def ofRelative? (clock : Instant) (text : Text) : Option Instant :=
  match text with
  | ['n', 'o', 'w'] => some clock
  | 'n' :: 'o' :: 'w' :: '+' :: offset => clock.ofOffset? false offset
  | 'n' :: 'o' :: 'w' :: '-' :: offset => clock.ofOffset? true offset
  | _ => none

end Instant

end FilterQuery
