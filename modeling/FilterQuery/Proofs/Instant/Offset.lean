import FilterQuery.Instant.Relative
import FilterQuery.Proofs.Instant.Calendar
import FilterQuery.Proofs.Number.Spelling
/-!
# Shifts of the clock

An offset is read into 64 bits, multiplied by its unit, made a duration and added to the clock,
and each of these can fail. `Instant.bind_duration?` says that only the last failure shows: what
stays within the range of instants is far from the bounds of 64 bits. So an offset of any length
shifts the clock by exactly what it names, or not at all where time ends before that.
-/

namespace FilterQuery

/-! ## Written offsets -/

/-- The unit behind an offset. -/
inductive OffsetUnit where
  | absent
  | day
  | hour
  | minute
  | second

namespace OffsetUnit

/-- A unit as it is written. -/
def text : OffsetUnit → Text
  | absent => []
  | day => ['d']
  | hour => ['h']
  | minute => ['m']
  | second => ['s']

/-- The seconds of a unit. An offset without one counts days. -/
def seconds : OffsetUnit → ℕ
  | absent => 86400
  | day => 86400
  | hour => 3600
  | minute => 60
  | second => 1

theorem unitSeconds?_text (unit : OffsetUnit) : Instant.unitSeconds? unit.text = some unit.seconds := by
  cases unit <;> rfl

theorem seconds_pos (unit : OffsetUnit) : 0 < unit.seconds := by
  cases unit <;> decide

theorem not_isDecimalDigit (unit : OffsetUnit) : ∀ c ∈ unit.text.head?, isDecimalDigit c = false := by
  cases unit <;> rintro c ⟨⟩ <;> rfl

end OffsetUnit

/-- An offset as it is written. -/
structure OffsetSpelling where
  negative : Bool
  digits : Digits
  ne_nil : digits.chars ≠ []
  unit : OffsetUnit

namespace OffsetSpelling

/-- A date relative to the clock, with the offset behind it. -/
def text (offset : OffsetSpelling) : Text :=
  "now".toList ++ (if offset.negative then '-' else '+') :: (offset.digits.chars ++ offset.unit.text)

/-- The count of units with its sign. -/
def count (offset : OffsetSpelling) : ℤ :=
  if offset.negative then -(offset.digits.value : ℤ) else offset.digits.value

/-- The seconds that an offset names. -/
def seconds (offset : OffsetSpelling) : ℤ := offset.count * offset.unit.seconds

end OffsetSpelling

namespace Instant

/-! ## The range of time -/

/-- The second is one from -262143-01-01T00:00:00Z to 262142-12-31T23:59:59Z. -/
def InRange (seconds : ℤ) : Prop :=
  Date.count ⟨-262143, 1, 1⟩ * daySeconds ≤ seconds ∧ seconds < (Date.count ⟨262142, 12, 31⟩ + 1) * daySeconds

theorem inRange_iff {seconds : ℤ} : InRange seconds ↔ firstSecond ≤ seconds ∧ seconds ≤ lastSecond := by
  have hfirst : Date.toDays ⟨-262143, 1, 1⟩ = -96465292 := by decide
  have hlast : Date.toDays ⟨262142, 12, 31⟩ = 95026236 := by decide
  rw [InRange, ← Date.toDays_eq_count (by decide), ← Date.toDays_eq_count (by decide), hfirst, hlast, daySeconds,
    firstSecond, lastSecond]
  omega

theorem inRange_seconds (instant : Instant) : InRange instant.seconds :=
  inRange_iff.2 ⟨instant.first_le_seconds, instant.seconds_le_last⟩

theorem shift?_eq_some_iff {clock instant : Instant} {delta : ℤ} : clock.shift? delta = some instant ↔
    instant.seconds = clock.seconds + delta ∧ instant.nanos = clock.nanos :=
  ofParts?_eq_some_iff

theorem exists_shift? {clock : Instant} {delta : ℤ} (h : InRange (clock.seconds + delta)) :
    ∃ instant, clock.shift? delta = some instant := by
  obtain ⟨hfirst, hlast⟩ := inRange_iff.1 h
  exact ⟨⟨clock.seconds + delta, clock.nanos, hfirst, hlast, clock.nanos_lt⟩, shift?_eq_some_iff.2 ⟨rfl, rfl⟩⟩

/-! ## Failures that do not show -/

/-- The integer has 64 bits. -/
def Fits (n : ℤ) : Prop := Number.minInteger ≤ n ∧ n ≤ Number.maxInteger

theorem fit?_eq_some_iff {n m : ℤ} : fit? n = some m ↔ Fits n ∧ m = n := by
  rw [fit?, Option.ite_none_right_eq_some, Option.some_inj, eq_comm (a := m)]
  rfl

theorem duration?_eq_some_iff {count seconds : ℤ} {unit : ℕ} : duration? count unit = some seconds ↔
    (Fits (count * unit) ∧ Fits (count * unit * 1000)) ∧ seconds = count * unit := by
  simp only [duration?, Option.bind_eq_bind, Option.bind_eq_some_iff, fit?_eq_some_iff, Option.some_inj]
  constructor
  · rintro ⟨_, ⟨hseconds, rfl⟩, _, ⟨hmillis, -⟩, rfl⟩
    exact ⟨⟨hseconds, hmillis⟩, rfl⟩
  · rintro ⟨⟨hseconds, hmillis⟩, rfl⟩
    exact ⟨_, ⟨hseconds, rfl⟩, _, ⟨hmillis, rfl⟩, rfl⟩

/-- A shift within the range of instants is of less than 64 bits, in units, seconds and milliseconds. -/
theorem fits_of_shift? {clock instant : Instant} {count : ℤ} {unit : ℕ} (hunit : 0 < unit)
    (h : clock.shift? (count * unit) = some instant) :
    Fits count ∧ Fits (count * unit) ∧ Fits (count * unit * 1000) := by
  have hseconds := (shift?_eq_some_iff.1 h).1
  have hfirst := clock.first_le_seconds
  have hlast := clock.seconds_le_last
  have hfirst' := instant.first_le_seconds
  have hlast' := instant.seconds_le_last
  have hcount : count.natAbs ≤ (count * unit).natAbs := by
    rw [Int.natAbs_mul]
    exact Nat.le_mul_of_pos_right _ hunit
  unfold Fits Number.minInteger Number.maxInteger
  unfold firstSecond at hfirst hfirst'
  unfold lastSecond at hlast hlast'
  generalize count * unit = seconds at hseconds hcount ⊢
  omega

/-- Counts and durations that do not fit are shifts that leave the range of instants. -/
theorem bind_duration? (clock : Instant) (count : ℤ) {unit : ℕ} (hunit : 0 < unit) :
    (fit? count).bind (fun count => (duration? count unit).bind clock.shift?) = clock.shift? (count * unit) := by
  ext instant
  simp only [Option.bind_eq_some_iff, fit?_eq_some_iff, duration?_eq_some_iff]
  constructor
  · rintro ⟨_, ⟨-, rfl⟩, _, ⟨-, rfl⟩, h⟩
    exact h
  · intro h
    obtain ⟨hcount, hduration⟩ := fits_of_shift? hunit h
    exact ⟨count, ⟨hcount, rfl⟩, count * unit, ⟨hduration, rfl⟩, h⟩

theorem shifted_eq (clock : Instant) (negative : Bool) (digits : Digits) {unit : ℕ} (hunit : 0 < unit) :
    clock.shifted negative digits.chars unit =
      (clock.shift? ((if negative then -(digits.value : ℤ) else digits.value) * unit)).getD clock := by
  rw [← bind_duration? clock _ hunit, shifted, offsetCount?, digits.natValue?_chars]
  rfl

/-! ## Offsets as they are written -/

theorem ofRelative?_text (clock : Instant) (offset : OffsetSpelling) :
    clock.ofRelative? offset.text = some ((clock.shift? offset.seconds).getD clock) := by
  have hspan : (offset.digits.chars ++ offset.unit.text).span isDecimalDigit =
      (offset.digits.chars, offset.unit.text) :=
    Text.span_append (fun c hc => isDecimalDigit_of_isDigit (offset.digits.isDigit c hc)) offset.unit.not_isDecimalDigit
  have hoffset : clock.ofOffset? offset.negative (offset.digits.chars ++ offset.unit.text) =
      some ((clock.shift? offset.seconds).getD clock) := by
    rw [ofOffset?, hspan]
    simp only [if_neg offset.ne_nil, offset.unit.unitSeconds?_text, Option.map_some]
    rw [shifted_eq clock _ _ offset.unit.seconds_pos]
    rfl
  unfold OffsetSpelling.text
  rw [← hoffset]
  cases offset.negative <;> rfl

/-- The instant is the clock later by the seconds, nanoseconds kept, if time goes on so far, and
the clock itself if it does not. -/
structure IsShift (clock : Instant) (delta : ℤ) (instant : Instant) : Prop where
  shifted : InRange (clock.seconds + delta) → instant.seconds = clock.seconds + delta ∧ instant.nanos = clock.nanos
  kept : ¬ InRange (clock.seconds + delta) → instant = clock

theorem isShift_getD (clock : Instant) (delta : ℤ) : clock.IsShift delta ((clock.shift? delta).getD clock) := by
  constructor
  · intro h
    obtain ⟨instant, hinstant⟩ := exists_shift? h
    rw [hinstant, Option.getD_some]
    exact shift?_eq_some_iff.1 hinstant
  · intro h
    cases hshift : clock.shift? delta with
    | none => rfl
    | some instant =>
      have hseconds := (shift?_eq_some_iff.1 hshift).1
      exact absurd (hseconds ▸ instant.inRange_seconds) h

/-- A date relative to the clock is the clock shifted by exactly what its offset names, so that
offsets of equal durations name one date, whatever their units. -/
theorem isShift_ofRelative? (clock : Instant) :
    (∀ offset : OffsetSpelling, ∃ instant,
      clock.ofRelative? offset.text = some instant ∧ clock.IsShift offset.seconds instant) ∧
    ∀ offset other : OffsetSpelling, offset.seconds = other.seconds →
      clock.ofRelative? offset.text = clock.ofRelative? other.text := by
  constructor
  · intro offset
    exact ⟨_, ofRelative?_text clock offset, isShift_getD clock offset.seconds⟩
  · intro offset other h
    rw [ofRelative?_text, ofRelative?_text, h]

/-- One day before the end of time one more day is a shift, in days or hours. -/
theorem isShift_ofRelative?_day :
    let clock : Instant := ⟨lastSecond - 86400, 999999999, by decide, by decide, by decide⟩
    let days : OffsetSpelling := ⟨false, ⟨"01".toList, List.all_eq_true.1 rfl⟩, by decide, .absent⟩
    let hours : OffsetSpelling := ⟨false, ⟨"24".toList, List.all_eq_true.1 rfl⟩, by decide, .hour⟩
    days.text = "now+01".toList ∧ hours.text = "now+24h".toList ∧ days.seconds = hours.seconds ∧
      clock.ofRelative? days.text = clock.ofRelative? hours.text :=
  ⟨by decide, by decide, by decide, (isShift_ofRelative? _).2 _ _ (by decide)⟩

/-- An offset whose seconds have more than 64 bits is no shift. -/
example (clock : Instant) : clock.ofRelative? "now-999999999999999999d".toList = some clock := by rfl

end Instant

end FilterQuery
