import FilterQuery.Proofs.Instant.RoundTrip
import Mathlib.Data.String.Basic
/-!
# The order of written dates

Each part of a date is written in a fixed width, the longer spans of time first. So the texts of two
dates compare as their days do, then as their times of day, then as their milliseconds, which is how
the instants compare.
-/

namespace FilterQuery

open Instant

/-- Days compare before what follows them. -/
theorem DaySpelling.text_append_lt_iff (a b : DaySpelling) (s t : Text) :
    a.text ++ s < b.text ++ t ↔ Date.Before a.date b.date ∨ a.date = b.date ∧ s < t := by
  simp only [text, dayText_append, FixedDigits.append_lt_append_iff, List.cons_lt_cons_self, Date.Before, date,
    Date.mk.injEq, Nat.cast_lt, Nat.cast_inj]
  tauto

/-- Times of day compare before what follows them. -/
theorem TimeSpelling.text_append_lt_iff {a b : TimeSpelling} (ha : a.IsReal) (hb : b.IsReal) (s t : Text) :
    a.text ++ s < b.text ++ t ↔ a.seconds < b.seconds ∨ a.seconds = b.seconds ∧ s < t := by
  obtain ⟨-, hminute, hsecond⟩ := ha
  obtain ⟨-, hminute', hsecond'⟩ := hb
  simp only [text, timeText_append, FixedDigits.append_lt_append_iff, List.cons_lt_cons_self, seconds]
  by_cases hrest : s < t
  · simp only [hrest, and_true]
    omega
  · simp only [hrest, and_false, or_false]
    omega

theorem FixedDigits.milliText_lt_iff (a b : FixedDigits 3) :
    milliText a.chars true < milliText b.chars true ↔ a.value < b.value := by
  rw [milliText, milliText, List.cons_lt_cons_self, append_lt_append_iff]
  exact or_iff_left fun h => absurd h.2 (List.lt_irrefl _)

namespace Instant

theorem eq_of_sinceEpoch {a b : Instant} (h : a.sinceEpoch = b.sinceEpoch) : a = b := by
  have hnanos := a.nanos_lt
  have hnanos' := b.nanos_lt
  unfold sinceEpoch at h
  exact eq_of_parts (by omega) (by omega)

theorem toText_truncate (instant : Instant) : instant.truncate.toText = instant.toText := by
  have hmilli : instant.truncate.nanos / 1000000 = instant.nanos / 1000000 :=
    Nat.mul_div_cancel _ (by decide)
  unfold toText
  rw [hmilli]
  rfl

section FourDigits
variable {a b : Instant} (ha : a.HasFourDigitYear) (hb : b.HasFourDigitYear)
include ha hb

theorem toText_lt_iff : a.toText < b.toText ↔ a.truncate.sinceEpoch < b.truncate.sinceEpoch := by
  have hparts : a.toText < b.toText ↔ Date.Before a.date b.date ∨ a.date = b.date ∧
      (a.secondOfDay < b.secondOfDay ∨
        a.secondOfDay = b.secondOfDay ∧ a.nanos / 1000000 < b.nanos / 1000000) := by
    rw [← text_spelling ha, ← text_spelling hb]
    simp only [spelling, IsoSpelling.text, DaySpelling.text_append_lt_iff, List.cons_lt_cons_self,
      TimeSpelling.text_append_lt_iff isReal_timeSpelling isReal_timeSpelling, FixedDigits.milliText_lt_iff,
      date_daySpelling, seconds_timeSpelling, milliDigits, FixedDigits.value_ofNat]
  have hbefore := a.isValid_date.toDays_lt_iff b.isValid_date
  have hsame : a.date = b.date ↔ a.date.toDays = b.date.toDays :=
    ⟨congrArg Date.toDays, a.isValid_date.toDays_inj b.isValid_date⟩
  have hseconds := a.seconds_eq
  have hseconds' := b.seconds_eq
  have hlt := a.secondOfDay_lt
  have hlt' := b.secondOfDay_lt
  have hnanos := a.nanos_lt
  have hnanos' := b.nanos_lt
  rw [hparts, ← hbefore, hsame]
  simp only [sinceEpoch, truncate]
  rw [← Date.toDays_eq_count a.isValid_date] at hseconds
  rw [← Date.toDays_eq_count b.isValid_date] at hseconds'
  omega

theorem toText_eq_iff : a.toText = b.toText ↔ a.truncate = b.truncate := by
  constructor
  · intro h
    have hread := ofIso?_toText ha
    rw [h, ofIso?_toText hb] at hread
    exact (Option.some.inj hread).symm
  · intro h
    rw [← toText_truncate a, h, toText_truncate]

/-- In the years 0 to 9999 written dates are in the order of time, and only dates that agree to the
millisecond are written alike. -/
theorem compare_toText :
    compare (String.ofList a.toText) (String.ofList b.toText) =
        compare a.truncate.sinceEpoch b.truncate.sinceEpoch ∧
      (String.ofList a.toText = String.ofList b.toText ↔ a.truncate = b.truncate) := by
  have hlt : String.ofList a.toText < String.ofList b.toText ↔ a.truncate.sinceEpoch < b.truncate.sinceEpoch := by
    rw [← toText_lt_iff ha hb, String.lt_iff_toList_lt, String.toList_ofList, String.toList_ofList]
  have heq : String.ofList a.toText = String.ofList b.toText ↔ a.truncate = b.truncate := by
    rw [String.ofList_inj, toText_eq_iff ha hb]
  have hsame : a.truncate = b.truncate ↔ a.truncate.sinceEpoch = b.truncate.sinceEpoch :=
    ⟨congrArg sinceEpoch, eq_of_sinceEpoch⟩
  have hcompare : ∀ s t : String, compare s t = compareOfLessAndEq s t := fun _ _ => rfl
  have hcompare' : ∀ m n : ℤ, compare m n = compareOfLessAndEq m n := fun _ _ => rfl
  refine ⟨?_, heq⟩
  simp only [hcompare, hcompare', compareOfLessAndEq, hlt, heq, hsame]

end FourDigits

/-- The last nanosecond of 1969 sorts before 1970. -/
theorem compare_toText_epoch :
    let a : Instant := ⟨-1, 999999999, by decide, by decide, by decide⟩
    let b : Instant := ⟨0, 0, by decide, by decide, by decide⟩
    a.HasFourDigitYear ∧ b.HasFourDigitYear ∧ compare (String.ofList a.toText) (String.ofList b.toText) = .lt := by
  intro a b
  have ha : a.HasFourDigitYear := by decide
  have hb : b.HasFourDigitYear := by decide
  exact ⟨ha, hb, (compare_toText ha hb).1.trans (by decide)⟩

end Instant

end FilterQuery
