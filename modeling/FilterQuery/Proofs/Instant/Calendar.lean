import FilterQuery.Instant.Calendar
import Mathlib.Algebra.Order.Ring.Int
import Mathlib.Tactic.IntervalCases
/-!
# Days and dates

`Date.count` adds up the lengths of the years and months from 1970-01-01 to a date.
`Date.toDays_eq_count` says that `toDays` is that count, and `Date.IsValid.toDays_lt_iff` that
later days have later dates. `Date.isValid_ofDays` and `Date.toDays_ofDays` say that each day
has a date, so that days and dates correspond.
-/

namespace FilterQuery

namespace Date

/-! ## Counting days -/

/-- The number of days of a year. -/
def yearLength (year : ℤ) : ℕ := if isLeap year then 366 else 365

/-- The days of a number of years, from a first year on. -/
def yearsLength (first : ℤ) : ℕ → ℕ
  | 0 => 0
  | years + 1 => yearsLength first years + yearLength (first + years)

/-- The days of the first months of a year. -/
def monthsLength (year : ℤ) : ℕ → ℕ
  | 0 => 0
  | months + 1 => monthsLength year months + monthLength year (months + 1)

/-- The days from 1970-01-01 to a date, or with a minus sign from an earlier date to that day: those of
the years between, of the months before and of the month itself. -/
def count (date : Date) : ℤ :=
  (yearsLength 1970 (date.year - 1970).toNat : ℤ) - yearsLength date.year (1970 - date.year).toNat +
    monthsLength date.year (date.month - 1) + (date.day - 1)

theorem yearLength_le (year : ℤ) : yearLength year ≤ 366 := by
  unfold yearLength
  split <;> decide

/-- The days from 1 March of year 0 to 1 March of a year. -/
def marchDays (year : ℤ) : ℤ := 365 * year + year / 4 - year / 100 + year / 400

/-- The year that begins in March has the leap day of the next. -/
theorem yearLength_eq (year : ℤ) : (yearLength year : ℤ) = marchDays year - marchDays (year - 1) := by
  have hleap : isLeap year = true ↔ year % 4 = 0 ∧ (year % 100 ≠ 0 ∨ year % 400 = 0) := by simp [isLeap]
  unfold yearLength marchDays
  split
  · next h =>
    have h := hleap.1 h
    omega
  · next h =>
    have h := mt hleap.2 h
    omega

theorem monthLength_two (year : ℤ) : (monthLength year 2 : ℤ) = yearLength year - 337 := by
  rw [monthLength, if_pos rfl, yearLength]
  split <;> rfl

/-- From March on five months have 153 days. -/
theorem monthLength_add_three (year : ℤ) {march : ℕ} (h : march ≤ 9) :
    (monthLength year (march + 3) : ℤ) = (153 * (march + 1) + 2) / 5 - (153 * march + 2) / 5 := by
  interval_cases march <;> rfl

theorem toDays_january (year : ℤ) : toDays ⟨year, 1, 1⟩ = marchDays (year - 1) + 306 - epochShift := by
  simp only [toDays, marchDays]
  omega

theorem toDays_february (year : ℤ) : toDays ⟨year, 2, 1⟩ = marchDays (year - 1) + 337 - epochShift := by
  simp only [toDays, marchDays]
  omega

theorem toDays_add_three (year : ℤ) {march : ℕ} (h : march ≤ 9) :
    toDays ⟨year, march + 3, 1⟩ = marchDays year + (153 * march + 2) / 5 - epochShift := by
  have hmonth : ((march + 3 : ℕ) + 9 : ℤ) % 12 = march := by omega
  simp only [toDays, hmonth, marchDays, if_neg (Nat.not_le.2 (Nat.lt_add_left march (by decide : 2 < 3)))]
  omega

theorem toDays_eq_add (date : Date) : date.toDays = toDays ⟨date.year, date.month, 1⟩ + (date.day - 1) := by
  simp only [toDays]
  omega

theorem toDays_nextYear (year : ℤ) : toDays ⟨year + 1, 1, 1⟩ = toDays ⟨year, 1, 1⟩ + yearLength year := by
  rw [toDays_january, toDays_january, yearLength_eq, add_sub_cancel_right]
  omega

theorem toDays_nextMonth (year : ℤ) {month : ℕ} (h : 1 ≤ month) (h' : month ≤ 11) :
    toDays ⟨year, month + 1, 1⟩ = toDays ⟨year, month, 1⟩ + monthLength year month := by
  match month, h with
  | 1, _ =>
    have hlength : monthLength year 1 = 31 := rfl
    rw [toDays_january, toDays_february, hlength]
    omega
  | 2, _ =>
    rw [toDays_february, toDays_add_three year (Nat.zero_le _), monthLength_two, yearLength_eq]
    omega
  | march + 3, _ =>
    rw [toDays_add_three year (show march + 1 ≤ 9 by omega), toDays_add_three year (by omega),
      monthLength_add_three year (by omega)]
    push_cast
    omega

theorem toDays_december (year : ℤ) : toDays ⟨year, 12, 1⟩ + monthLength year 12 = toDays ⟨year + 1, 1, 1⟩ := by
  rw [toDays_add_three year le_rfl, monthLength_add_three year le_rfl, toDays_january, add_sub_cancel_right]
  omega

/-- The years add up. -/
theorem toDays_add_yearsLength (first : ℤ) (years : ℕ) :
    toDays ⟨first, 1, 1⟩ + yearsLength first years = toDays ⟨first + years, 1, 1⟩ := by
  induction years with
  | zero => rw [yearsLength, Nat.cast_zero, add_zero, add_zero]
  | succ years ih =>
    rw [yearsLength, Nat.cast_add, ← add_assoc, ih, Nat.cast_succ, ← add_assoc, toDays_nextYear]

/-- The months add up. -/
theorem toDays_add_monthsLength (year : ℤ) {months : ℕ} (h : months ≤ 11) :
    toDays ⟨year, 1, 1⟩ + monthsLength year months = toDays ⟨year, months + 1, 1⟩ := by
  induction months with
  | zero => rw [monthsLength, Nat.cast_zero, add_zero]
  | succ months ih =>
    rw [monthsLength, Nat.cast_add, ← add_assoc, ih (by omega), toDays_nextMonth year (by omega) h]

/-- `toDays` counts days. -/
theorem toDays_eq_count {date : Date} (h : date.IsValid) : date.toDays = date.count := by
  obtain ⟨hmonth, hmonth', -, -⟩ := h
  have hepoch : toDays ⟨1970, 1, 1⟩ = 0 := by decide
  have hmonths := toDays_add_monthsLength date.year (show date.month - 1 ≤ 11 by omega)
  rw [Nat.sub_add_cancel hmonth] at hmonths
  rw [toDays_eq_add, count]
  rcases le_total 1970 date.year with hyear | hyear
  · have hyears := toDays_add_yearsLength 1970 (date.year - 1970).toNat
    have hnone : (1970 - date.year).toNat = 0 := by omega
    rw [Int.toNat_of_nonneg (by omega), add_sub_cancel] at hyears
    rw [hnone, yearsLength]
    omega
  · have hyears := toDays_add_yearsLength date.year (1970 - date.year).toNat
    have hnone : (date.year - 1970).toNat = 0 := by omega
    rw [Int.toNat_of_nonneg (by omega), add_sub_cancel] at hyears
    rw [hnone, yearsLength]
    omega

/-! ## The order of dates -/

/-- The order of dates, by year, month and day. -/
def Before (a b : Date) : Prop :=
  a.year < b.year ∨ a.year = b.year ∧ (a.month < b.month ∨ a.month = b.month ∧ a.day < b.day)

theorem before_trichotomy (a b : Date) : Before a b ∨ a = b ∨ Before b a := by
  obtain ⟨year, month, day⟩ := a
  obtain ⟨year', month', day'⟩ := b
  simp only [Before, Date.mk.injEq]
  omega

theorem toDays_month_le (year : ℤ) {month later : ℕ} (h : 1 ≤ month) (hlater : month < later) (h' : later ≤ 12) :
    toDays ⟨year, month, 1⟩ + monthLength year month ≤ toDays ⟨year, later, 1⟩ := by
  induction later, hlater using Nat.le_induction with
  | base => rw [toDays_nextMonth year h (by omega)]
  | succ later hlater ih =>
    have hlater : month + 1 ≤ later := hlater
    rw [toDays_nextMonth year (by omega) (by omega)]
    have hprev := ih (by omega)
    omega

theorem toDays_year_le {year later : ℤ} (h : year ≤ later) : toDays ⟨year, 1, 1⟩ ≤ toDays ⟨later, 1, 1⟩ := by
  have hyears := toDays_add_yearsLength year (later - year).toNat
  rw [Int.toNat_of_nonneg (by omega), add_sub_cancel] at hyears
  omega

section Valid
variable {a b : Date} (ha : a.IsValid) (hb : b.IsValid)

include ha in
/-- A date falls into its month. -/
theorem IsValid.month_le : toDays ⟨a.year, a.month, 1⟩ ≤ a.toDays ∧
    a.toDays < toDays ⟨a.year, a.month, 1⟩ + monthLength a.year a.month := by
  obtain ⟨-, -, hday, hday'⟩ := ha
  have htoDays := toDays_eq_add a
  omega

include ha in
/-- A date falls into its year. -/
theorem IsValid.year_le : toDays ⟨a.year, 1, 1⟩ ≤ a.toDays ∧ a.toDays < toDays ⟨a.year + 1, 1, 1⟩ := by
  obtain ⟨hfirst, hlast⟩ := ha.month_le
  obtain ⟨hmonth, hmonth', -, -⟩ := ha
  have hdecember := toDays_december a.year
  constructor
  · rcases hmonth.eq_or_lt with heq | hlt
    · rwa [← heq] at hfirst
    · have hjanuary := toDays_month_le a.year le_rfl hlt hmonth'
      omega
  · rcases hmonth'.eq_or_lt with heq | hlt
    · rw [heq] at hlast
      omega
    · have hmonths := toDays_month_le a.year hmonth hlt le_rfl
      omega

include ha hb in
theorem IsValid.toDays_lt (h : Before a b) : a.toDays < b.toDays := by
  rcases h with hyear | ⟨hyear, hmonth | ⟨hmonth, hday⟩⟩
  · calc a.toDays < toDays ⟨a.year + 1, 1, 1⟩ := ha.year_le.2
      _ ≤ toDays ⟨b.year, 1, 1⟩ := toDays_year_le hyear
      _ ≤ b.toDays := hb.year_le.1
  · calc a.toDays < toDays ⟨a.year, a.month, 1⟩ + monthLength a.year a.month := ha.month_le.2
      _ ≤ toDays ⟨a.year, b.month, 1⟩ := toDays_month_le a.year ha.1 hmonth hb.2.1
      _ = toDays ⟨b.year, b.month, 1⟩ := by rw [hyear]
      _ ≤ b.toDays := hb.month_le.1
  · have hfirst : toDays ⟨a.year, a.month, 1⟩ = toDays ⟨b.year, b.month, 1⟩ := by rw [hyear, hmonth]
    rw [toDays_eq_add a, toDays_eq_add b]
    omega

include ha hb in
/-- Later days have later dates. -/
theorem IsValid.toDays_lt_iff : a.toDays < b.toDays ↔ Before a b := by
  refine ⟨fun h => ?_, ha.toDays_lt hb⟩
  rcases before_trichotomy a b with hlt | rfl | hgt
  · exact hlt
  · exact absurd h (lt_irrefl _)
  · exact absurd h (hb.toDays_lt ha hgt).not_gt

include ha hb in
/-- Dates of one day are one date. -/
theorem IsValid.toDays_inj (h : a.toDays = b.toDays) : a = b := by
  rcases before_trichotomy a b with hlt | heq | hgt
  · exact absurd h (ha.toDays_lt hb hlt).ne
  · exact heq
  · exact absurd h (hb.toDays_lt ha hgt).ne'

end Valid

/-! ## The date of a day -/

/-- The date of a day of a year that begins in March, the first day being 0. -/
def ofMarchDay (year inYear : ℤ) : Date :=
  let march := (5 * inYear + 2) / 153
  let day := inYear - (153 * march + 2) / 5 + 1
  let month := if march < 10 then march + 3 else march - 9
  ⟨if month ≤ 2 then year + 1 else year, month.toNat, day.toNat⟩

section March
variable {cycle century quad single : ℤ} (hcentury : 0 ≤ century ∧ century ≤ 3) (hquad : 0 ≤ quad ∧ quad ≤ 24)
  (hsingle : 0 ≤ single ∧ single ≤ 3)
include hcentury hquad hsingle

theorem marchDays_eq : marchDays (400 * cycle + 100 * century + 4 * quad + single) =
    146097 * cycle + 36524 * century + 1461 * quad + 365 * single := by
  have hquads : (400 * cycle + 100 * century + 4 * quad + single) / 4 = 100 * cycle + 25 * century + quad := by omega
  have hcenturies : (400 * cycle + 100 * century + 4 * quad + single) / 100 = 4 * cycle + century := by omega
  have hcycles : (400 * cycle + 100 * century + 4 * quad + single) / 400 = cycle := by omega
  rw [marchDays, hquads, hcenturies, hcycles]
  omega

/-- The year that begins in March ends with the February of the next. -/
theorem yearLength_march : yearLength (400 * cycle + 100 * century + 4 * quad + single + 1) =
    if single = 3 ∧ (quad < 24 ∨ century = 3) then 366 else 365 := by
  have hleap : isLeap (400 * cycle + 100 * century + 4 * quad + single + 1) = true ↔
      single = 3 ∧ (quad < 24 ∨ century = 3) := by
    simp only [isLeap, Bool.and_eq_true, Bool.or_eq_true, decide_eq_true_eq]
    omega
  exact if_congr hleap rfl rfl

end March

/-- `ofDays` finds the year, from March on, that a day falls into, and the day of that year. -/
theorem exists_ofDays (days : ℤ) : ∃ year inYear : ℤ, days + epochShift = marchDays year + inYear ∧
    0 ≤ inYear ∧ inYear < yearLength (year + 1) ∧ ofDays days = ofMarchDay year inYear := by
  let cycle := (days + epochShift) / cycleDays
  let inCycle := (days + epochShift) % cycleDays
  let century := min (inCycle / 36524) 3
  let inCentury := inCycle - 36524 * century
  let quad := inCentury / 1461
  let inQuad := inCentury - 1461 * quad
  let single := min (inQuad / 365) 3
  have hcycle : days + epochShift = 146097 * cycle + inCycle ∧ 0 ≤ inCycle ∧ inCycle < 146097 := by
    simp only [cycle, inCycle, cycleDays]
    omega
  have hcentury : 0 ≤ century ∧ century ≤ 3 := by omega
  -- only the last century of a cycle ends with a leap day
  have hinCentury : 0 ≤ inCentury ∧ (inCentury < 36524 ∨ century = 3 ∧ inCentury = 36524) := by omega
  have hquad : 0 ≤ quad ∧ quad ≤ 24 := by omega
  have hinQuad : 0 ≤ inQuad ∧ (inQuad < 1460 ∨ inQuad = 1460 ∧ (quad < 24 ∨ century = 3)) := by omega
  have hsingle : 0 ≤ single ∧ single ≤ 3 := by omega
  -- only the last of four years has a day 365
  have hinYear : 0 ≤ inQuad - 365 * single ∧
      (inQuad - 365 * single < 365 ∨ inQuad - 365 * single = 365 ∧ single = 3 ∧ inQuad = 1460) := by omega
  refine ⟨400 * cycle + 100 * century + 4 * quad + single, inQuad - 365 * single, ?_, hinYear.1, ?_, rfl⟩
  · rw [marchDays_eq hcentury hquad hsingle, hcycle.1]
    omega
  · rw [yearLength_march hcentury hquad hsingle]
    split_ifs <;> omega

section MarchDay
variable (year : ℤ) {inYear : ℤ} (h : 0 ≤ inYear)
include h

/-- Ten months are of the year itself, and the last two of the next. -/
theorem exists_ofMarchDay (h' : inYear < 366) : ∃ march : ℕ, (153 * (march : ℤ) + 2) / 5 ≤ inYear ∧
    inYear < (153 * ((march : ℤ) + 1) + 2) / 5 ∧
    (march ≤ 9 ∧ ofMarchDay year inYear = ⟨year, march + 3, (inYear - (153 * march + 2) / 5 + 1).toNat⟩ ∨
      march = 10 ∧ ofMarchDay year inYear = ⟨year + 1, 1, (inYear - 306 + 1).toNat⟩ ∨
      march = 11 ∧ ofMarchDay year inYear = ⟨year + 1, 2, (inYear - 337 + 1).toNat⟩) := by
  obtain ⟨march, hmarch⟩ : ∃ march : ℕ, (5 * inYear + 2) / 153 = march := ⟨((5 * inYear + 2) / 153).toNat, by omega⟩
  refine ⟨march, by omega, by omega, ?_⟩
  unfold ofMarchDay
  rw [hmarch]
  simp only [Date.mk.injEq, and_true]
  split_ifs <;> omega

theorem toDays_ofMarchDay (h' : inYear < 366) :
    (ofMarchDay year inYear).toDays = marchDays year + inYear - epochShift := by
  obtain ⟨march, hbegin, -, ⟨hmarch, heq⟩ | ⟨rfl, heq⟩ | ⟨rfl, heq⟩⟩ := exists_ofMarchDay year h h'
  · rw [heq, toDays_eq_add, toDays_add_three year hmarch]
    simp only
    omega
  · rw [heq, toDays_eq_add, toDays_january, add_sub_cancel_right]
    simp only
    omega
  · rw [heq, toDays_eq_add, toDays_february, add_sub_cancel_right]
    simp only
    omega

/-- The days of a year that begins in March fall into the months of their years. -/
theorem isValid_ofMarchDay (h' : inYear < yearLength (year + 1)) : (ofMarchDay year inYear).IsValid := by
  have hlength := yearLength_le (year + 1)
  obtain ⟨march, hbegin, hend, ⟨hmarch, heq⟩ | ⟨rfl, heq⟩ | ⟨rfl, heq⟩⟩ :=
    exists_ofMarchDay year h (by omega)
  · have hmonth := monthLength_add_three year hmarch
    rw [heq]
    simp only [IsValid]
    omega
  · have hmonth : monthLength (year + 1) 1 = 31 := rfl
    rw [heq]
    simp only [IsValid]
    omega
  · have hmonth := monthLength_two (year + 1)
    rw [heq]
    simp only [IsValid]
    omega

end MarchDay

/-- The date of a day is one of the calendar. -/
theorem isValid_ofDays (days : ℤ) : (ofDays days).IsValid := by
  obtain ⟨year, inYear, -, h, h', hdate⟩ := exists_ofDays days
  rw [hdate]
  exact isValid_ofMarchDay year h h'

/-- The date of a day is that day. -/
theorem toDays_ofDays (days : ℤ) : (ofDays days).toDays = days := by
  obtain ⟨year, inYear, hdays, h, h', hdate⟩ := exists_ofDays days
  have hlength := yearLength_le (year + 1)
  rw [hdate, toDays_ofMarchDay year h (by omega), ← hdays]
  omega

/-- The day of a date has that date. -/
theorem ofDays_toDays {date : Date} (h : date.IsValid) : ofDays date.toDays = date :=
  (isValid_ofDays _).toDays_inj h (toDays_ofDays _)

end Date

end FilterQuery
