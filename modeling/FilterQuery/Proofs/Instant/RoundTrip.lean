import FilterQuery.Proofs.Instant.Scalar
/-!
# Written dates are read back

In the years 0 to 9999 an instant is written as a spelling that names it to the millisecond
(`Instant.names_spelling`), so that it is read back from its text; `Date.toDays` and `Date.ofDays`
are inverse there and everywhere. What is read from any text lies in those years and is whole in
milliseconds, so that it is read once more from its own text.
-/

namespace FilterQuery

/-! ## Dates of four-digit years -/

theorem Date.IsValid.lt_hundred {date : Date} (h : date.IsValid) : date.month < 10 ^ 2 ∧ date.day < 10 ^ 2 := by
  obtain ⟨-, hmonth, -, hday⟩ := h
  have hlength : monthLength date.year date.month ≤ 31 := by
    unfold monthLength
    split_ifs <;> decide
  omega

namespace Instant

/-- The day of an instant is the day of the calendar on which it falls. -/
theorem isValid_date (instant : Instant) : instant.date.IsValid := Date.isValid_ofDays _

theorem count_date (instant : Instant) : instant.date.count = instant.seconds / daySeconds := by
  rw [← Date.toDays_eq_count instant.isValid_date, date, Date.toDays_ofDays]

theorem date_eq {instant : Instant} {day : Date} (hday : day.IsValid) {time : ℕ} (htime : time < 86400)
    (h : instant.seconds = day.count * 86400 + time) : instant.date = day := by
  have hdays : instant.seconds / daySeconds = day.toDays := by
    rw [h, Date.toDays_eq_count hday, daySeconds]
    omega
  rw [date, hdays, Date.ofDays_toDays hday]

/-- The instant lies in a year of four digits. -/
def HasFourDigitYear (instant : Instant) : Prop := 0 ≤ instant.date.year ∧ instant.date.year ≤ 9999

instance (instant : Instant) : Decidable instant.HasFourDigitYear := inferInstanceAs (Decidable (_ ∧ _))

/-- The instant without what is below its milliseconds. -/
def truncate (instant : Instant) : Instant :=
  { instant with
    nanos := instant.nanos / 1000000 * 1000000
    nanos_lt := (Nat.div_mul_le_self _ _).trans_lt instant.nanos_lt }

/-- The nanoseconds of an instant, counted from 1970-01-01T00:00:00Z. -/
def sinceEpoch (instant : Instant) : ℤ := instant.seconds * 1000000000 + instant.nanos

/-- Also before 1970 an instant is truncated to the last whole millisecond that is not after it. -/
theorem sinceEpoch_truncate (instant : Instant) :
    instant.truncate.sinceEpoch = instant.sinceEpoch / 1000000 * 1000000 := by
  simp only [sinceEpoch, truncate]
  omega

theorem secondOfDay_lt (instant : Instant) : instant.secondOfDay < 86400 := by
  unfold secondOfDay daySeconds
  omega

/-- An instant is a day and a second of that day. -/
theorem seconds_eq (instant : Instant) :
    instant.seconds = instant.date.count * 86400 + instant.secondOfDay := by
  rw [count_date, secondOfDay, daySeconds]
  omega

/-- The day of an instant, as it is written. -/
def daySpelling {instant : Instant} (h : instant.HasFourDigitYear) : DaySpelling where
  year := .ofNat (n := instant.date.year.natAbs) (by decide) (by
    have hyear := h.2
    have hyear' := h.1
    omega)
  month := .ofNat (n := instant.date.month) (by decide) instant.isValid_date.lt_hundred.1
  day := .ofNat (n := instant.date.day) (by decide) instant.isValid_date.lt_hundred.2

/-- The time of day of an instant, as it is written. -/
def timeSpelling (instant : Instant) : TimeSpelling where
  hour := .ofNat (n := instant.secondOfDay / 3600) (by decide) (by
    have hlt := instant.secondOfDay_lt
    omega)
  minute := .ofNat (n := instant.secondOfDay / 60 % 60) (by decide) (by omega)
  second := .ofNat (n := instant.secondOfDay % 60) (by decide) (by omega)

/-- The milliseconds of an instant, as they are written. -/
def milliDigits (instant : Instant) : FixedDigits 3 :=
  .ofNat (n := instant.nanos / 1000000) (by decide) (by
    have hlt := instant.nanos_lt
    omega)

/-- The spelling in which an instant is written. -/
def spelling {instant : Instant} (h : instant.HasFourDigitYear) : IsoSpelling :=
  .milli (daySpelling h) instant.timeSpelling instant.milliDigits true

variable {instant : Instant} (h : instant.HasFourDigitYear)
include h

theorem text_spelling : (spelling h).text = instant.toText := by
  have hyear : yearText instant.date.year = Text.ofNatPadded 4 instant.date.year.natAbs := by
    rw [yearText, if_neg (not_lt.2 h.1), if_neg (not_lt.2 h.2)]
  rw [toText, hyear]
  simp only [List.append_assoc, List.cons_append]
  simp only [spelling, IsoSpelling.text, DaySpelling.text, dayText_append, TimeSpelling.text, timeText_append, milliText]
  rfl

theorem date_daySpelling : (daySpelling h).date = instant.date := by
  have hyear : ((daySpelling h).year.value : ℤ) = instant.date.year := by
    rw [daySpelling, FixedDigits.value_ofNat]
    exact Int.natAbs_of_nonneg h.1
  rw [DaySpelling.date, hyear, daySpelling, FixedDigits.value_ofNat, FixedDigits.value_ofNat]

omit h in
theorem seconds_timeSpelling : instant.timeSpelling.seconds = instant.secondOfDay := by
  simp only [TimeSpelling.seconds, timeSpelling, FixedDigits.value_ofNat]
  omega

omit h in
theorem isReal_timeSpelling : instant.timeSpelling.IsReal := by
  have hlt := instant.secondOfDay_lt
  simp only [TimeSpelling.IsReal, timeSpelling, FixedDigits.value_ofNat]
  omega

/-- An instant is written as what names it, to the millisecond. -/
theorem names_spelling : (spelling h).Names instant.truncate := by
  refine IsoSpelling.names_iff.2 ⟨⟨?_, isReal_timeSpelling⟩, ?_, ?_⟩
  · rw [date_daySpelling]
    exact instant.isValid_date
  · rw [spelling, IsoSpelling.seconds, date_daySpelling, seconds_timeSpelling]
    exact instant.seconds_eq
  · rw [spelling, IsoSpelling.milliseconds, milliDigits, FixedDigits.value_ofNat]
    rfl

theorem ofIso?_toText : ofIso? instant.toText = some instant.truncate := by
  rw [← text_spelling h]
  exact (ofIso?_text _).2 (names_spelling h)

end Instant

namespace IsoSpelling
open Instant

theorem Names.exists_date {s : IsoSpelling} {instant : Instant} (h : s.Names instant) :
    ∃ d : DaySpelling, instant.date = d.date := by
  obtain ⟨hreal, hseconds, -⟩ := names_iff.1 h
  cases s with
  | day d =>
    have hmidnight : instant.seconds = d.date.count * 86400 + (0 : ℕ) := by
      rw [hseconds, Nat.cast_zero, add_zero]
      rfl
    exact ⟨d, date_eq hreal (by decide) hmidnight⟩
  | time d t => exact ⟨d, date_eq hreal.1 (TimeSpelling.seconds_lt hreal.2) hseconds⟩
  | milli d t m zulu => exact ⟨d, date_eq hreal.1 (TimeSpelling.seconds_lt hreal.2) hseconds⟩

theorem Names.hasFourDigitYear {s : IsoSpelling} {instant : Instant} (h : s.Names instant) :
    instant.HasFourDigitYear := by
  obtain ⟨d, hd⟩ := h.exists_date
  have hyear : instant.date.year = d.year.value := congrArg Date.year hd
  have hlt := d.year.value_lt
  rw [HasFourDigitYear, hyear]
  omega

theorem Names.truncate_eq {s : IsoSpelling} {instant : Instant} (h : s.Names instant) :
    instant.truncate = instant := by
  obtain ⟨-, -, hnanos⟩ := names_iff.1 h
  have hwhole : instant.nanos / 1000000 * 1000000 = instant.nanos := by omega
  exact eq_of_parts rfl hwhole

end IsoSpelling

namespace Instant

/-- Dates of four-digit years are read back as they are written, among the scalars too, and what
is read once is read again from the text in which it is written. -/
theorem toText_readsBack (instant : Instant) :
    (instant.HasFourDigitYear →
      ofIso? instant.toText = some instant.truncate ∧ Node.ofScalar instant.toText = .date instant.truncate) ∧
    ∀ text, ofIso? text = some instant → ofIso? instant.toText = some instant := by
  constructor
  · intro h
    exact ⟨ofIso?_toText h, Node.ofScalar_of_ofIso? (ofIso?_toText h)⟩
  · intro text h
    have hnames : ∃ s : IsoSpelling, s.Names instant := by
      rcases ofIso?_eq_some_iff.1 h with ⟨s, -, hs⟩ | ⟨f, -, hf⟩
      · exact ⟨s, hs⟩
      · exact ⟨f.wholeSecond, hf⟩
    obtain ⟨s, hs⟩ := hnames
    rw [ofIso?_toText hs.hasFourDigitYear, hs.truncate_eq]

/-- A nanosecond before 1970 is written as a millisecond before, and read back as such. -/
theorem toText_readsBack_last_nanosecond :
    let instant : Instant := ⟨-1, 999999999, by decide, by decide, by decide⟩
    instant.HasFourDigitYear ∧ instant.toText = "1969-12-31T23:59:59.999Z".toList ∧
      instant.truncate.nanos = 999000000 ∧ ofIso? instant.toText = some instant.truncate ∧
      ofIso? instant.truncate.toText = some instant.truncate := by
  intro instant
  have h : instant.HasFourDigitYear := by decide
  obtain ⟨hread, -⟩ := (toText_readsBack instant).1 h
  exact ⟨h, by decide, by decide, hread, (toText_readsBack instant.truncate).2 _ hread⟩

end Instant

end FilterQuery
