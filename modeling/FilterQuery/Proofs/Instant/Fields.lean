import FilterQuery.Instant.Iso
import Mathlib.Data.List.Basic
/-!
# The fields of a written date

A date is a day, then a time of day behind `T`, then milliseconds behind a point and `Z`, where
each part but the first may be absent together with all that follow it. The digits of its fields
are of any script. `Instant.isoFields?_eq_some_iff` says that the fields taken off a text are those
that make up the text.
-/

namespace FilterQuery

namespace Instant

/-- A day of digits as it is written. -/
def dayText (year month day : Text) : Text := year ++ '-' :: (month ++ '-' :: day)

/-- A time of day of digits as it is written. -/
def timeText (hour minute second : Text) : Text := hour ++ ':' :: (minute ++ ':' :: second)

/-- Milliseconds of digits as they are written, and an optional mark of the zone. -/
def milliText (milli : Text) (zulu : Bool) : Text := '.' :: (milli ++ if zulu then ['Z'] else [])

/-- The text is a number of decimal digits, in any script. -/
def IsRun (count : ℕ) (digits : Text) : Prop := digits.length = count ∧ ∀ c ∈ digits, isDecimalDigit c = true

/-- The fields of a day in decimal digits. -/
def IsDay (year month day : Text) : Prop := IsRun 4 year ∧ IsRun 2 month ∧ IsRun 2 day

/-- The fields of a time of day in decimal digits. -/
def IsTime (hour minute second : Text) : Prop := IsRun 2 hour ∧ IsRun 2 minute ∧ IsRun 2 second

/-- The fields make up the text. -/
inductive IsoFields.Spells : IsoFields → Text → Prop
  | day {year month day : Text} (hday : IsDay year month day) :
    Spells ⟨year, month, day, none, none⟩ (dayText year month day)
  | time {year month day hour minute second : Text} (hday : IsDay year month day) (htime : IsTime hour minute second) :
    Spells ⟨year, month, day, some (hour, minute, second), none⟩
      (dayText year month day ++ 'T' :: timeText hour minute second)
  | milli {year month day hour minute second milli : Text} (hday : IsDay year month day)
    (htime : IsTime hour minute second) (hmilli : IsRun 3 milli) (zulu : Bool) :
    Spells ⟨year, month, day, some (hour, minute, second), some milli⟩
      (dayText year month day ++ 'T' :: (timeText hour minute second ++ milliText milli zulu))

theorem takeDigits?_eq_some_iff {count : ℕ} {text digits rest : Text} :
    takeDigits? count text = some (digits, rest) ↔ text = digits ++ rest ∧ IsRun count digits := by
  induction count generalizing text digits with
  | zero =>
    rw [takeDigits?, Option.some_inj, Prod.mk.injEq, IsRun, List.length_eq_zero_iff]
    constructor
    · rintro ⟨rfl, rfl⟩
      exact ⟨rfl, rfl, by simp⟩
    · rintro ⟨rfl, rfl, -⟩
      exact ⟨rfl, rfl⟩
  | succ count ih =>
    cases text with
    | nil =>
      constructor
      · nofun
      · rintro ⟨h, hlength, -⟩
        rw [(List.append_eq_nil_iff.1 h.symm).1] at hlength
        cases hlength
    | cons c text =>
      rw [takeDigits?, Option.ite_none_right_eq_some, Option.map_eq_some_iff]
      constructor
      · rintro ⟨hc, ⟨digits', rest'⟩, h, he⟩
        obtain ⟨rfl, rfl⟩ := Prod.mk.inj he
        obtain ⟨rfl, hlength, hdigits⟩ := ih.1 h
        exact ⟨rfl, congrArg (· + 1) hlength, List.forall_mem_cons.2 ⟨hc, hdigits⟩⟩
      · rintro ⟨h, hlength, hdigits⟩
        cases digits with
        | nil => cases hlength
        | cons d digits =>
          obtain ⟨rfl, rfl⟩ := List.cons.inj h
          obtain ⟨hc, hdigits⟩ := List.forall_mem_cons.1 hdigits
          exact ⟨hc, (digits, rest), ih.2 ⟨rfl, Nat.succ.inj hlength, hdigits⟩, rfl⟩

theorem takeMark?_eq_some_iff {mark : Char} {text rest : Text} :
    takeMark? mark text = some rest ↔ text = mark :: rest := by
  cases text with
  | nil => exact iff_of_false nofun nofun
  | cons c text => rw [takeMark?, Option.ite_none_right_eq_some, Option.some_inj, List.cons.injEq]

theorem dayText_append (year month day rest : Text) :
    dayText year month day ++ rest = year ++ '-' :: (month ++ '-' :: (day ++ rest)) := by
  simp [dayText]

theorem timeText_append (hour minute second rest : Text) :
    timeText hour minute second ++ rest = hour ++ ':' :: (minute ++ ':' :: (second ++ rest)) := by
  simp [timeText]

theorem fraction?_eq_some_iff {text milli : Text} :
    fraction? text = some milli ↔ IsRun 3 milli ∧ ∃ zulu, text = milliText milli zulu := by
  simp only [fraction?, Option.bind_eq_bind, Option.bind_eq_some_iff, Prod.exists, takeMark?_eq_some_iff,
    takeDigits?_eq_some_iff, Option.ite_none_right_eq_some, Option.some_inj]
  constructor
  · rintro ⟨_, rfl, _, rest, ⟨rfl, hmilli⟩, rfl | rfl, rfl⟩
    · exact ⟨hmilli, false, rfl⟩
    · exact ⟨hmilli, true, rfl⟩
  · rintro ⟨hmilli, zulu, rfl⟩
    refine ⟨_, rfl, milli, _, ⟨rfl, hmilli⟩, ?_, rfl⟩
    cases zulu
    · exact .inl rfl
    · exact .inr rfl

/-- The fields of a text are those that make it up. -/
theorem isoFields?_eq_some_iff {text : Text} {fields : IsoFields} :
    isoFields? text = some fields ↔ fields.Spells text := by
  simp only [isoFields?, Option.bind_eq_bind, Option.bind_eq_some_iff, Prod.exists, takeMark?_eq_some_iff,
    takeDigits?_eq_some_iff]
  constructor
  · intro h
    obtain ⟨year, _, ⟨rfl, hyear⟩, _, rfl, month, _, ⟨rfl, hmonth⟩, _, rfl, day, rest, ⟨rfl, hday⟩, h⟩ := h
    have hday : IsDay year month day := ⟨hyear, hmonth, hday⟩
    rw [← dayText_append]
    split at h
    · next hrest =>
      obtain rfl := Option.some.inj h
      rw [hrest, List.append_nil]
      exact .day hday
    · simp only [Option.bind_eq_some_iff, Prod.exists, takeMark?_eq_some_iff, takeDigits?_eq_some_iff] at h
      obtain ⟨_, rfl, hour, _, ⟨rfl, hhour⟩, _, rfl, minute, _, ⟨rfl, hminute⟩, _, rfl, second, rest, ⟨rfl, hsecond⟩,
        h⟩ := h
      have htime : IsTime hour minute second := ⟨hhour, hminute, hsecond⟩
      rw [← timeText_append]
      split at h
      · next hrest =>
        obtain rfl := Option.some.inj h
        rw [hrest, List.append_nil]
        exact .time hday htime
      · obtain ⟨milli, hmilli, hfields⟩ := Option.bind_eq_some_iff.1 h
        obtain ⟨hrun, zulu, rfl⟩ := fraction?_eq_some_iff.1 hmilli
        obtain rfl := Option.some.inj hfields
        exact .milli hday htime hrun zulu
  · intro h
    cases h with
    | day hday =>
      obtain ⟨hyear, hmonth, hday⟩ := hday
      exact ⟨_, _, ⟨rfl, hyear⟩, _, rfl, _, _, ⟨rfl, hmonth⟩, _, rfl, _, [], ⟨(List.append_nil _).symm, hday⟩, if_pos rfl⟩
    | time hday htime =>
      obtain ⟨hyear, hmonth, hday⟩ := hday
      obtain ⟨hhour, hminute, hsecond⟩ := htime
      refine ⟨_, _, ⟨dayText_append .., hyear⟩, _, rfl, _, _, ⟨rfl, hmonth⟩, _, rfl, _, _, ⟨rfl, hday⟩, ?_⟩
      rw [if_neg (List.cons_ne_nil _ _)]
      simp only [Option.bind_eq_some_iff, Prod.exists, takeMark?_eq_some_iff, takeDigits?_eq_some_iff]
      exact ⟨_, rfl, _, _, ⟨rfl, hhour⟩, _, rfl, _, _, ⟨rfl, hminute⟩, _, rfl, _, [],
        ⟨(List.append_nil _).symm, hsecond⟩, if_pos rfl⟩
    | milli hday htime hmilli zulu =>
      obtain ⟨hyear, hmonth, hday⟩ := hday
      obtain ⟨hhour, hminute, hsecond⟩ := htime
      refine ⟨_, _, ⟨dayText_append .., hyear⟩, _, rfl, _, _, ⟨rfl, hmonth⟩, _, rfl, _, _, ⟨rfl, hday⟩, ?_⟩
      rw [if_neg (List.cons_ne_nil _ _)]
      simp only [Option.bind_eq_some_iff, Prod.exists, takeMark?_eq_some_iff, takeDigits?_eq_some_iff]
      refine ⟨_, congrArg _ (timeText_append ..), _, _, ⟨rfl, hhour⟩, _, rfl, _, _, ⟨rfl, hminute⟩, _, rfl, _, _,
        ⟨rfl, hsecond⟩, ?_⟩
      rw [milliText, if_neg (List.cons_ne_nil _ _)]
      exact Option.bind_eq_some_iff.2 ⟨_, fraction?_eq_some_iff.2 ⟨hmilli, zulu, rfl⟩, rfl⟩

/-! ## The characters of dates -/

/-- The character may stand in a written date. -/
def isIsoChar (c : Char) : Bool := c ∈ ['-', 'T', ':', '.', 'Z'] || isDecimalDigit c

theorem isIsoChar_run {count : ℕ} {digits : Text} (h : IsRun count digits) : ∀ c ∈ digits, isIsoChar c = true :=
  fun c hc => Bool.or_eq_true_iff.2 (.inr (h.2 c hc))

theorem isIsoChar_day {year month day : Text} (h : IsDay year month day) :
    ∀ c ∈ dayText year month day, isIsoChar c = true := by
  simp only [dayText, List.forall_mem_append, List.forall_mem_cons]
  exact ⟨isIsoChar_run h.1, rfl, isIsoChar_run h.2.1, rfl, isIsoChar_run h.2.2⟩

theorem isIsoChar_time {hour minute second : Text} (h : IsTime hour minute second) :
    ∀ c ∈ timeText hour minute second, isIsoChar c = true := by
  simp only [timeText, List.forall_mem_append, List.forall_mem_cons]
  exact ⟨isIsoChar_run h.1, rfl, isIsoChar_run h.2.1, rfl, isIsoChar_run h.2.2⟩

theorem isIsoChar_milli {milli : Text} (h : IsRun 3 milli) (zulu : Bool) :
    ∀ c ∈ milliText milli zulu, isIsoChar c = true := by
  simp only [milliText, List.forall_mem_append, List.forall_mem_cons]
  exact ⟨rfl, isIsoChar_run h, List.all_eq_true.1 (by cases zulu <;> rfl)⟩

theorem isIsoChar_of_spells {fields : IsoFields} {text : Text} (h : fields.Spells text) :
    ∀ c ∈ text, isIsoChar c = true := by
  cases h with
  | day hday => exact isIsoChar_day hday
  | time hday htime =>
    simp only [List.forall_mem_append, List.forall_mem_cons]
    exact ⟨isIsoChar_day hday, rfl, isIsoChar_time htime⟩
  | milli hday htime hmilli zulu =>
    simp only [List.forall_mem_append, List.forall_mem_cons]
    exact ⟨isIsoChar_day hday, rfl, isIsoChar_time htime, isIsoChar_milli hmilli zulu⟩

end Instant

end FilterQuery
