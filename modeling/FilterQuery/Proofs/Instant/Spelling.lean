import FilterQuery.Proofs.FixedDigits
import FilterQuery.Proofs.Instant.Calendar
import FilterQuery.Proofs.Instant.Fields
/-!
# Spellings of dates

A date in ASCII digits names a real day and time, or nothing. The reader takes up just these texts
and reads them as what they name (`Instant.ofIso?_text`), with one exception: milliseconds in the
digits of another script are dropped without a word, while such digits in any other field make a
text no date (`Instant.readsExactly_iff`).
-/

namespace FilterQuery

open Instant

theorem FixedDigits.isRun {width : ℕ} (digits : FixedDigits width) : IsRun width digits.chars :=
  ⟨digits.length_chars, fun c hc => isDecimalDigit_of_isDigit (digits.isDigit c hc)⟩

theorem Instant.IsRun.exists_or_foreign {width : ℕ} {chars : Text} (h : IsRun width chars) :
    (∃ digits : FixedDigits width, digits.chars = chars) ∨ ¬ ∀ c ∈ chars, c.isDigit = true := by
  by_cases hdigits : ∀ c ∈ chars, c.isDigit = true
  · exact .inl ⟨⟨⟨chars, hdigits⟩, h.1⟩, rfl⟩
  · exact .inr hdigits

/-- Digits that are read as a number are ASCII digits. -/
theorem Instant.IsRun.exists_digits {width n : ℕ} {chars : Text} (h : IsRun width chars)
    (hn : Text.natValue? 10 chars = some n) : ∃ digits : FixedDigits width, digits.chars = chars :=
  h.exists_or_foreign.resolve_right (not_not_intro (Text.isDigit_of_natValue? hn))

/-- A day as it is written. -/
structure DaySpelling where
  year : FixedDigits 4
  month : FixedDigits 2
  day : FixedDigits 2

namespace DaySpelling

/-- The text of a day. -/
def text (s : DaySpelling) : Text := dayText s.year.chars s.month.chars s.day.chars

/-- The date that a day names. -/
def date (s : DaySpelling) : Date := ⟨s.year.value, s.month.value, s.day.value⟩

theorem isDay (s : DaySpelling) : IsDay s.year.chars s.month.chars s.day.chars :=
  ⟨s.year.isRun, s.month.isRun, s.day.isRun⟩

/-- The days of the years 0 to 9999. -/
theorem toDays_mem (s : DaySpelling) (h : s.date.IsValid) :
    -719528 ≤ s.date.toDays ∧ s.date.toDays < 2932897 := by
  have hyear : (s.year.value : ℤ) + 1 ≤ 10000 := by
    have hlt := s.year.value_lt
    omega
  have hfirst : Date.toDays ⟨0, 1, 1⟩ = -719528 := by decide
  have hlast : Date.toDays ⟨10000, 1, 1⟩ = 2932897 := by decide
  rw [← hfirst, ← hlast]
  exact ⟨(Date.toDays_year_le (Int.natCast_nonneg _)).trans h.year_le.1,
    h.year_le.2.trans_le (Date.toDays_year_le hyear)⟩

end DaySpelling

/-- A time of day as it is written. -/
structure TimeSpelling where
  hour : FixedDigits 2
  minute : FixedDigits 2
  second : FixedDigits 2

namespace TimeSpelling

/-- The text of a time of day. -/
def text (s : TimeSpelling) : Text := timeText s.hour.chars s.minute.chars s.second.chars

/-- There is such a time on every day. -/
def IsReal (s : TimeSpelling) : Prop := s.hour.value ≤ 23 ∧ s.minute.value ≤ 59 ∧ s.second.value ≤ 59

instance (s : TimeSpelling) : Decidable s.IsReal := inferInstanceAs (Decidable (_ ∧ _))

/-- The seconds from the beginning of the day. -/
def seconds (s : TimeSpelling) : ℕ := s.hour.value * 3600 + s.minute.value * 60 + s.second.value

theorem isTime (s : TimeSpelling) : IsTime s.hour.chars s.minute.chars s.second.chars :=
  ⟨s.hour.isRun, s.minute.isRun, s.second.isRun⟩

theorem seconds_lt {s : TimeSpelling} (h : s.IsReal) : s.seconds < 86400 := by
  obtain ⟨hhour, hminute, hsecond⟩ := h
  unfold seconds
  omega

end TimeSpelling

/-- A date as it is written in ASCII digits. -/
inductive IsoSpelling where
  | day (day : DaySpelling)
  | time (day : DaySpelling) (time : TimeSpelling)
  | milli (day : DaySpelling) (time : TimeSpelling) (milli : FixedDigits 3) (zulu : Bool)

namespace IsoSpelling

/-- The text of a spelling. -/
def text : IsoSpelling → Text
  | day d => d.text
  | time d t => d.text ++ 'T' :: t.text
  | milli d t m zulu => d.text ++ 'T' :: (t.text ++ milliText m.chars zulu)

/-- The spelling names a day of the calendar and a time that this day has. -/
def IsReal : IsoSpelling → Prop
  | day d => d.date.IsValid
  | time d t | milli d t _ _ => d.date.IsValid ∧ t.IsReal

/-- The seconds that a spelling names, counted from 1970-01-01T00:00:00Z. -/
def seconds : IsoSpelling → ℤ
  | day d => d.date.count * 86400
  | time d t | milli d t _ _ => d.date.count * 86400 + t.seconds

/-- The milliseconds that a spelling names. -/
def milliseconds : IsoSpelling → ℕ
  | day _ | time _ _ => 0
  | milli _ _ m _ => m.value

theorem seconds_mem {s : IsoSpelling} (h : s.IsReal) : firstSecond ≤ s.seconds ∧ s.seconds ≤ lastSecond := by
  have hday : ∀ d : DaySpelling, d.date.IsValid → ∀ t : ℕ, t < 86400 →
      firstSecond ≤ d.date.count * 86400 + t ∧ d.date.count * 86400 + t ≤ lastSecond := by
    intro d hd t ht
    have hbounds := d.toDays_mem hd
    rw [← Date.toDays_eq_count hd, firstSecond, lastSecond]
    omega
  cases s with
  | day d =>
    have hbounds := hday d h 0 (by decide)
    rwa [Nat.cast_zero, add_zero] at hbounds
  | time d t => exact hday d h.1 t.seconds (TimeSpelling.seconds_lt h.2)
  | milli d t m zulu => exact hday d h.1 t.seconds (TimeSpelling.seconds_lt h.2)

theorem milliseconds_lt (s : IsoSpelling) : s.milliseconds < 1000 := by
  cases s with
  | milli d t m zulu => exact m.value_lt
  | _ => exact Nat.zero_lt_succ _

/-- The instant of a real date. -/
def instant (s : IsoSpelling) (h : s.IsReal) : Instant where
  seconds := s.seconds
  nanos := s.milliseconds * 1000000
  first_le_seconds := (seconds_mem h).1
  seconds_le_last := (seconds_mem h).2
  nanos_lt := by
    have hlt := s.milliseconds_lt
    omega

/-- The spelling names a real date, and the instant is that. -/
def Names (s : IsoSpelling) (instant : Instant) : Prop := ∃ h : s.IsReal, s.instant h = instant

theorem names_iff {s : IsoSpelling} {instant : Instant} :
    s.Names instant ↔ s.IsReal ∧ instant.seconds = s.seconds ∧ instant.nanos = s.milliseconds * 1000000 := by
  constructor
  · rintro ⟨h, rfl⟩
    exact ⟨h, rfl, rfl⟩
  · rintro ⟨h, hseconds, hnanos⟩
    exact ⟨h, eq_of_parts hseconds.symm hnanos.symm⟩

end IsoSpelling

/-- A date whose milliseconds are written in decimal digits that are not all ASCII. -/
structure ForeignSpelling where
  day : DaySpelling
  time : TimeSpelling
  milli : Text
  isRun : IsRun 3 milli
  not_isDigit : ¬ ∀ c ∈ milli, c.isDigit = true
  zulu : Bool

namespace ForeignSpelling

/-- The text of such a date. -/
def text (f : ForeignSpelling) : Text := f.day.text ++ 'T' :: (f.time.text ++ milliText f.milli f.zulu)

/-- The date without the milliseconds. -/
def wholeSecond (f : ForeignSpelling) : IsoSpelling := .time f.day f.time

end ForeignSpelling

/-! ## What is read -/

/-- The fields of a spelling. -/
def IsoSpelling.fields : IsoSpelling → IsoFields
  | day d => ⟨d.year.chars, d.month.chars, d.day.chars, none, none⟩
  | time d t => ⟨d.year.chars, d.month.chars, d.day.chars, some (t.hour.chars, t.minute.chars, t.second.chars), none⟩
  | milli d t m _ =>
    ⟨d.year.chars, d.month.chars, d.day.chars, some (t.hour.chars, t.minute.chars, t.second.chars), some m.chars⟩

/-- The fields of a date with foreign milliseconds. -/
def ForeignSpelling.fields (f : ForeignSpelling) : IsoFields :=
  ⟨f.day.year.chars, f.day.month.chars, f.day.day.chars,
    some (f.time.hour.chars, f.time.minute.chars, f.time.second.chars), some f.milli⟩

namespace Instant

theorem spells_text (s : IsoSpelling) : s.fields.Spells s.text := by
  cases s with
  | day d => exact .day d.isDay
  | time d t => exact .time d.isDay t.isTime
  | milli d t m zulu => exact .milli d.isDay t.isTime m.isRun zulu

theorem spells_foreign (f : ForeignSpelling) : f.fields.Spells f.text :=
  .milli f.day.isDay f.time.isTime f.isRun f.zulu

/-- No text is both a date in ASCII digits and one with foreign milliseconds. -/
theorem text_ne_foreign (s : IsoSpelling) (f : ForeignSpelling) : s.text ≠ f.text := by
  intro h
  have hfields : s.fields = f.fields := by
    have hs := isoFields?_eq_some_iff.2 (spells_text s)
    rw [h, isoFields?_eq_some_iff.2 (spells_foreign f)] at hs
    exact (Option.some.inj hs).symm
  have hmilli : s.fields.milli = some f.milli := congrArg IsoFields.milli hfields
  cases s with
  | milli d t m zulu =>
    apply f.not_isDigit
    rw [← Option.some.inj hmilli]
    exact m.isDigit
  | _ => cases hmilli

theorem ofDateTime?_eq_some_iff {date : Date} {hour minute second milli : ℕ} {instant : Instant} :
    ofDateTime? date hour minute second milli = some instant ↔
      instant.seconds = date.toDays * daySeconds + (hour * 3600 + minute * 60 + second : ℕ) ∧
        instant.nanos = milli * 1000000 :=
  ofParts?_eq_some_iff

theorem ofIsoFields?_day (d : DaySpelling) {instant : Instant} :
    ofIsoFields? ⟨d.year.chars, d.month.chars, d.day.chars, none, none⟩ = some instant ↔
      (IsoSpelling.day d).Names instant := by
  simp only [ofIsoFields?, Option.bind_eq_bind, FixedDigits.natValue?_chars, Option.bind_some]
  rw [Option.ite_none_left_eq_some, not_not, ofDateTime?_eq_some_iff, IsoSpelling.names_iff]
  refine and_congr_right fun hday => ?_
  rw [Date.toDays_eq_count hday, Nat.cast_zero, add_zero]
  rfl

theorem ofIsoFields?_time (d : DaySpelling) (t : TimeSpelling) (milli : Option Text) {instant : Instant} :
    ofIsoFields? ⟨d.year.chars, d.month.chars, d.day.chars, some (t.hour.chars, t.minute.chars, t.second.chars), milli⟩ =
        some instant ↔
      (d.date.IsValid ∧ t.IsReal) ∧ instant.seconds = d.date.count * 86400 + t.seconds ∧
        instant.nanos = (milli.bind (Text.natValue? 10)).getD 0 * 1000000 := by
  simp only [ofIsoFields?, Option.bind_eq_bind, FixedDigits.natValue?_chars, Option.bind_some]
  rw [Option.ite_none_left_eq_some, not_not, Option.ite_none_left_eq_some, ofDateTime?_eq_some_iff, and_assoc]
  refine and_congr_right fun hday => and_congr ?_ ?_
  · rw [TimeSpelling.IsReal]
    omega
  · have hdays : d.date.toDays = d.date.count := Date.toDays_eq_count hday
    rw [← hdays]
    rfl

theorem ofIsoFields?_fields (s : IsoSpelling) {instant : Instant} :
    ofIsoFields? s.fields = some instant ↔ s.Names instant := by
  cases s with
  | day d => exact ofIsoFields?_day d
  | time d t =>
    rw [IsoSpelling.fields, ofIsoFields?_time, IsoSpelling.names_iff]
    rfl
  | milli d t m zulu =>
    rw [IsoSpelling.fields, ofIsoFields?_time, Option.bind_some, m.natValue?_chars, IsoSpelling.names_iff]
    rfl

/-- Milliseconds in foreign digits are dropped. -/
theorem ofIsoFields?_foreign (f : ForeignSpelling) {instant : Instant} :
    ofIsoFields? f.fields = some instant ↔ f.wholeSecond.Names instant := by
  have hmilli : Text.natValue? 10 f.milli = none := by
    rw [Option.eq_none_iff_forall_ne_some]
    exact fun n hn => f.not_isDigit (Text.isDigit_of_natValue? hn)
  rw [ForeignSpelling.fields, ofIsoFields?_time, Option.bind_some, hmilli, IsoSpelling.names_iff]
  rfl

theorem ofIso?_eq_of_spells {fields : IsoFields} {text : Text} (h : fields.Spells text) :
    ofIso? text = ofIsoFields? fields := by
  rw [ofIso?, isoFields?_eq_some_iff.2 h, Option.bind_some]

theorem ofIso?_text (s : IsoSpelling) {instant : Instant} : ofIso? s.text = some instant ↔ s.Names instant := by
  rw [ofIso?_eq_of_spells (spells_text s), ofIsoFields?_fields]

theorem ofIso?_foreign (f : ForeignSpelling) {instant : Instant} :
    ofIso? f.text = some instant ↔ f.wholeSecond.Names instant := by
  rw [ofIso?_eq_of_spells (spells_foreign f), ofIsoFields?_foreign]

/-- The fields of a day that is read are in ASCII digits. -/
theorem exists_day {year month day : Text} {time : Option (Text × Text × Text)} {milli : Option Text}
    {instant : Instant} (hday : IsDay year month day)
    (h : ofIsoFields? ⟨year, month, day, time, milli⟩ = some instant) :
    ∃ d : DaySpelling, d.year.chars = year ∧ d.month.chars = month ∧ d.day.chars = day := by
  simp only [ofIsoFields?, Option.bind_eq_bind, Option.bind_eq_some_iff] at h
  obtain ⟨_, hyear, _, hmonth, _, hdays, -⟩ := h
  obtain ⟨year, rfl⟩ := hday.1.exists_digits hyear
  obtain ⟨month, rfl⟩ := hday.2.1.exists_digits hmonth
  obtain ⟨day, rfl⟩ := hday.2.2.exists_digits hdays
  exact ⟨⟨year, month, day⟩, rfl, rfl, rfl⟩

/-- The fields of a time of day that is read are in ASCII digits. -/
theorem exists_time {year month day hour minute second : Text} {milli : Option Text} {instant : Instant}
    (htime : IsTime hour minute second)
    (h : ofIsoFields? ⟨year, month, day, some (hour, minute, second), milli⟩ = some instant) :
    ∃ t : TimeSpelling, t.hour.chars = hour ∧ t.minute.chars = minute ∧ t.second.chars = second := by
  simp only [ofIsoFields?, Option.bind_eq_bind, Option.bind_eq_some_iff, Option.ite_none_left_eq_some] at h
  obtain ⟨_, -, _, -, _, -, -, _, hhour, _, hminute, _, hsecond, -⟩ := h
  obtain ⟨hour, rfl⟩ := htime.1.exists_digits hhour
  obtain ⟨minute, rfl⟩ := htime.2.1.exists_digits hminute
  obtain ⟨second, rfl⟩ := htime.2.2.exists_digits hsecond
  exact ⟨⟨hour, minute, second⟩, rfl, rfl, rfl⟩

/-- What is read is a spelling, in ASCII digits but for the milliseconds. -/
theorem exists_text {text : Text} {instant : Instant} (h : ofIso? text = some instant) :
    (∃ s : IsoSpelling, s.text = text) ∨ ∃ f : ForeignSpelling, f.text = text := by
  obtain ⟨fields, hfields, hinstant⟩ := Option.bind_eq_some_iff.1 h
  cases isoFields?_eq_some_iff.1 hfields with
  | day hday =>
    obtain ⟨d, rfl, rfl, rfl⟩ := exists_day hday hinstant
    exact .inl ⟨.day d, rfl⟩
  | time hday htime =>
    obtain ⟨d, rfl, rfl, rfl⟩ := exists_day hday hinstant
    obtain ⟨t, rfl, rfl, rfl⟩ := exists_time htime hinstant
    exact .inl ⟨.time d t, rfl⟩
  | milli hday htime hmilli zulu =>
    obtain ⟨d, rfl, rfl, rfl⟩ := exists_day hday hinstant
    obtain ⟨t, rfl, rfl, rfl⟩ := exists_time htime hinstant
    rcases hmilli.exists_or_foreign with ⟨m, rfl⟩ | hforeign
    · exact .inl ⟨.milli d t m zulu, rfl⟩
    · exact .inr ⟨⟨d, t, _, hmilli, hforeign, zulu⟩, rfl⟩

/-- A text is read as the date that it spells, milliseconds in foreign digits dropped. -/
theorem ofIso?_eq_some_iff {text : Text} {instant : Instant} : ofIso? text = some instant ↔
    (∃ s : IsoSpelling, s.text = text ∧ s.Names instant) ∨
      ∃ f : ForeignSpelling, f.text = text ∧ f.wholeSecond.Names instant := by
  constructor
  · intro h
    rcases exists_text h with ⟨s, rfl⟩ | ⟨f, rfl⟩
    · exact .inl ⟨s, rfl, (ofIso?_text s).1 h⟩
    · exact .inr ⟨f, rfl, (ofIso?_foreign f).1 h⟩
  · rintro (⟨s, rfl, h⟩ | ⟨f, rfl, h⟩)
    · exact (ofIso?_text s).2 h
    · exact (ofIso?_foreign f).2 h

/-- The text is read as the instant that it spells in ASCII digits, and is no date if it spells none. -/
def ReadsExactly (text : Text) : Prop :=
  ∀ instant, ofIso? text = some instant ↔ ∃ s : IsoSpelling, s.text = text ∧ s.Names instant

/-- All texts are read exactly but those with foreign milliseconds behind a real date, and these are
read as if the milliseconds were absent. -/
theorem readsExactly_iff (text : Text) :
    (ReadsExactly text ↔ ¬ ∃ f : ForeignSpelling, f.text = text ∧ f.wholeSecond.IsReal) ∧
      ∀ f : ForeignSpelling, f.text = text → ∀ instant, ofIso? text = some instant ↔ f.wholeSecond.Names instant := by
  refine ⟨⟨?_, ?_⟩, ?_⟩
  · rintro h ⟨f, rfl, hreal⟩
    obtain ⟨s, hs, -⟩ := (h _).1 ((ofIso?_foreign f).2 ⟨hreal, rfl⟩)
    exact text_ne_foreign s f hs
  · intro h instant
    rw [ofIso?_eq_some_iff]
    refine or_iff_left ?_
    rintro ⟨f, hf, hreal, -⟩
    exact h ⟨f, hf, hreal⟩
  · rintro f rfl instant
    exact ofIso?_foreign f

/-- The Arabic digits of 250 milliseconds are read as none. -/
theorem readsExactly_iff_arabic :
    let f : ForeignSpelling := {
      day := ⟨.ofNat (n := 2025) (by decide) (by decide), .ofNat (n := 10) (by decide) (by decide),
        .ofNat (n := 1) (by decide) (by decide)⟩
      time := ⟨.ofNat (n := 8) (by decide) (by decide), .ofNat (n := 30) (by decide) (by decide),
        .ofNat (n := 15) (by decide) (by decide)⟩
      milli := "\u0662\u0665\u0660".toList
      isRun := ⟨rfl, List.all_eq_true.1 rfl⟩
      not_isDigit := fun h => absurd (h '\u0662' (by decide)) (by decide)
      zulu := true }
    f.text = "2025-10-01T08:30:15.\u0662\u0665\u0660Z".toList ∧ ¬ ReadsExactly f.text ∧
      ofIso? f.text = ofIso? "2025-10-01T08:30:15".toList :=
  ⟨by decide, fun h => (readsExactly_iff _).1.1 h ⟨_, rfl, by decide, by decide⟩, by decide⟩

end Instant

end FilterQuery
