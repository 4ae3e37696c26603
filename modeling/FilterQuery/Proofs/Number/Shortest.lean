import FilterQuery.Number.Layout
import FilterQuery.Proofs.FixedDigits
import FilterQuery.Proofs.Number.Nearest
/-!
# Shortest decimals and their text

The decimal that is written for a code lies between the middles to the codes around it, so the
code is the nearest one to it: `isNearest_shortest`. The search for the decimal never fails,
because the finest grid is narrower than the distance of two codes. Text without exponent part
has the digits of the decimal, with zeros behind them or a point among them.
-/

namespace FilterQuery

namespace Double

/-! ## Between the middles -/

/-- The decimal lies between the middles around the code, and on a middle only if the code is
even. Lengths are counted in halves of the unit of `units`. -/
def RoundsBack (code : Nat) (d : Decimal) : Prop :=
  let low := (units (code - 1) + units code) * Nat.pow 10 (-d.exponent).toNat
  let high := (units code + units (code + 1)) * Nat.pow 10 (-d.exponent).toNat
  let point := d.significand * (Nat.pow 10 d.exponent.toNat * Nat.pow 2 1075)
  if code % 2 = 0 then low ≤ point ∧ point ≤ high else low < point ∧ point < high

theorem RoundsBack.le {code : Nat} {d : Decimal} (h : RoundsBack code d) :
    (units (code - 1) + units code) * Nat.pow 10 (-d.exponent).toNat ≤
        d.significand * (Nat.pow 10 d.exponent.toNat * Nat.pow 2 1075) ∧
      d.significand * (Nat.pow 10 d.exponent.toNat * Nat.pow 2 1075) ≤
        (units code + units (code + 1)) * Nat.pow 10 (-d.exponent).toNat := by
  simp only [RoundsBack] at h
  split at h
  · exact h
  · exact ⟨h.1.le, h.2.le⟩

theorem RoundsBack.lt {code : Nat} {d : Decimal} (h : RoundsBack code d) (hodd : code % 2 ≠ 0) :
    (units (code - 1) + units code) * Nat.pow 10 (-d.exponent).toNat <
        d.significand * (Nat.pow 10 d.exponent.toNat * Nat.pow 2 1075) ∧
      d.significand * (Nat.pow 10 d.exponent.toNat * Nat.pow 2 1075) <
        (units code + units (code + 1)) * Nat.pow 10 (-d.exponent).toNat := by
  simpa only [RoundsBack, if_neg hodd] using h

/-- The value of a decimal as a number of units over a power of ten. -/
theorem value_eq_div (d : Decimal) : d.value =
    ((d.significand * 10 ^ d.exponent.toNat * 2 ^ 1074 : Nat) : ℚ) / (Nat.pow 10 (-d.exponent).toNat * 2 ^ 1074) := by
  rw [Decimal.value_eq_div, Nat.cast_mul _ (2 ^ 1074), Nat.cast_pow 2, Nat.cast_ofNat,
    mul_div_mul_right _ _ (pow_ne_zero _ two_ne_zero), Nat.pow_eq]

theorem two_mul_size (d : Decimal) : 2 * (d.significand * 10 ^ d.exponent.toNat * 2 ^ 1074) =
    d.significand * (Nat.pow 10 d.exponent.toNat * Nat.pow 2 1075) := by
  have hpow : Nat.pow 2 1075 = 2 ^ 1074 * 2 := by decide +kernel
  rw [hpow, Nat.mul_comm 2, Nat.mul_assoc, Nat.mul_assoc]
  rfl

theorem two_mul_value_lt_iff {code other : Nat} {d : Decimal} : 2 * d.value < magnitude code + magnitude other ↔
    d.significand * (Nat.pow 10 d.exponent.toNat * Nat.pow 2 1075) <
      (units code + units other) * Nat.pow 10 (-d.exponent).toNat := by
  have hden : 0 < Nat.pow 10 (-d.exponent).toNat := Nat.pow_pos (by decide)
  rw [value_eq_div, two_mul_div_lt_iff hden, two_mul_size]

theorem lt_two_mul_value_iff {code other : Nat} {d : Decimal} : magnitude code + magnitude other < 2 * d.value ↔
    (units code + units other) * Nat.pow 10 (-d.exponent).toNat <
      d.significand * (Nat.pow 10 d.exponent.toNat * Nat.pow 2 1075) := by
  have hden : 0 < Nat.pow 10 (-d.exponent).toNat := Nat.pow_pos (by decide)
  rw [value_eq_div, lt_two_mul_div_iff hden, two_mul_size]

/-- A code is the nearest one to what rounds back to it. -/
theorem RoundsBack.isNearest {code : Nat} {d : Decimal} (h : RoundsBack code d) (hzero : code ≠ 0)
    (hcode : code < infinityCode) : IsNearest d.value code := by
  obtain ⟨below, rfl⟩ := Nat.exists_eq_succ_of_ne_zero hzero
  have hlow : magnitude below + magnitude (below + 1) ≤ 2 * d.value :=
    not_lt.1 (mt two_mul_value_lt_iff.1 (not_lt.2 h.le.1))
  have hhigh : 2 * d.value ≤ magnitude (below + 1) + magnitude (below + 2) :=
    not_lt.1 (mt lt_two_mul_value_iff.1 (not_lt.2 h.le.2))
  -- on a middle the code is even
  have heven : magnitude below + magnitude (below + 1) = 2 * d.value ∨
      2 * d.value = magnitude (below + 1) + magnitude (below + 2) → (below + 1) % 2 = 0 := by
    intro hmiddle
    by_contra hodd
    rcases hmiddle with hmiddle | hmiddle
    · exact (lt_two_mul_value_iff.2 (h.lt hodd).1).ne hmiddle
    · exact (two_mul_value_lt_iff.2 (h.lt hodd).2).ne hmiddle
  rcases le_total (magnitude (below + 1)) d.value with hle | hle
  · exact isNearest_of_below hcode hle (by linarith) fun he => heven (.inr (by linarith))
  · exact isNearest_of_above ((Nat.lt_succ_self below).trans hcode) hle (by linarith) fun he =>
      heven (.inl (by linarith))

/-! ## The search -/

/-- A point that is found on a grid rounds back. -/
theorem roundsBack_of_gridPoint? {tie : Tie} {code : Nat} {exponent : Int} {point : Nat}
    (h : gridPoint? tie code exponent = some point) : RoundsBack code ⟨point, exponent⟩ := by
  have hdecide : ∀ {low high multiple : Nat},
      (if code % 2 = 0 then decide (low ≤ multiple) && decide (multiple ≤ high)
        else decide (low < multiple) && decide (multiple < high)) = true →
      if code % 2 = 0 then low ≤ multiple ∧ multiple ≤ high else low < multiple ∧ multiple < high := by
    intro low high multiple
    split <;> simp
  simp only [gridPoint?] at h
  simp only [RoundsBack]
  generalize Nat.pow 10 exponent.toNat * Nat.pow 2 1075 = step at h ⊢
  generalize 2 * units code * Nat.pow 10 (-exponent).toNat = value at h
  generalize value / step = below at h
  split at h
  · next hbelow habove =>
    -- both neighbours on the grid round back, and one of them is taken
    have hpoint : point = below ∨ point = below + 1 := by
      split at h
      · exact .inl (Option.some.inj h).symm
      · split at h
        · exact .inr (Option.some.inj h).symm
        · cases tie with
          | toEven =>
            have heven := Option.some.inj h
            omega
          | up => exact .inr (Option.some.inj h).symm
    rcases hpoint with rfl | rfl
    · exact hdecide hbelow
    · exact hdecide habove
  · next hbelow _ =>
    obtain rfl := Option.some.inj h
    exact hdecide hbelow
  · next _ habove =>
    obtain rfl := Option.some.inj h
    exact hdecide habove
  · cases h

/-- The finest grid has a point for every code but zero: the multiple below a magnitude is nearer to
it than the middle below. -/
theorem isSome_gridPoint?_finest (tie : Tie) {code : Nat} (hcode : code ≠ 0) :
    (gridPoint? tie code (-324)).isSome = true := by
  have hstep : Nat.pow 10 (-324 : Int).toNat * Nat.pow 2 1075 < Nat.pow 10 (-(-324) : Int).toNat := by decide +kernel
  have hpos : 0 < Nat.pow 10 (-324 : Int).toNat * Nat.pow 2 1075 := by decide +kernel
  have hbelow : units (code - 1) + 1 ≤ units code := by
    obtain ⟨code, rfl⟩ := Nat.exists_eq_succ_of_ne_zero hcode
    rw [Nat.succ_sub_one, Nat.succ_eq_add_one, units_succ]
    exact Nat.add_le_add_left (Nat.two_pow_pos _) _
  have habove : units code + 1 ≤ units (code + 1) := by
    rw [units_succ]
    exact Nat.add_le_add_left (Nat.two_pow_pos _) _
  simp only [gridPoint?]
  generalize Nat.pow 10 (-324 : Int).toNat * Nat.pow 2 1075 = step at hstep hpos ⊢
  generalize Nat.pow 10 (-(-324) : Int).toNat = scale at hstep ⊢
  have hlow : (units (code - 1) + units code) * scale + scale ≤ 2 * units code * scale := by
    rw [← Nat.succ_mul]
    exact Nat.mul_le_mul_right scale (by omega)
  have hhigh : 2 * units code * scale + scale ≤ (units code + units (code + 1)) * scale := by
    rw [← Nat.succ_mul]
    exact Nat.mul_le_mul_right scale (by omega)
  have hrest : 2 * units code * scale < 2 * units code * scale / step * step + step := Nat.lt_div_mul_add hpos
  have hmultiple : 2 * units code * scale / step * step ≤ 2 * units code * scale := Nat.div_mul_le_self _ _
  generalize 2 * units code * scale / step = below at hrest hmultiple ⊢
  have hrounds : (if code % 2 = 0 then
      decide ((units (code - 1) + units code) * scale ≤ below * step) &&
        decide (below * step ≤ (units code + units (code + 1)) * scale)
      else decide ((units (code - 1) + units code) * scale < below * step) &&
        decide (below * step < (units code + units (code + 1)) * scale)) = true := by
    split <;> simp only [Bool.and_eq_true, decide_eq_true_eq] <;> omega
  rw [hrounds]
  split
  · split
    · rfl
    · split
      · rfl
      · cases tie <;> rfl
  · rfl
  · rfl
  · next hfalse _ => cases hfalse

/-- What is written for a code other than zero rounds back to it. -/
theorem roundsBack_shortest (tie : Tie) {code : Nat} (hcode : code ≠ 0) : RoundsBack code (shortest tie code) := by
  rw [shortest, if_neg hcode]
  cases hfind : gridExponents.findSome? fun e => (gridPoint? tie code e).map fun point => Decimal.mk point e with
  | none =>
    obtain ⟨point, hpoint⟩ := Option.isSome_iff_exists.1 (isSome_gridPoint?_finest tie hcode)
    have hfinest : -324 ∈ gridExponents := List.mem_map.2 ⟨632, List.mem_range.2 (by decide), by decide⟩
    have hnone := List.findSome?_eq_none_iff.1 hfind (-324) hfinest
    rw [hpoint] at hnone
    cases hnone
  | some d =>
    obtain ⟨e, -, hd⟩ := List.exists_of_findSome?_eq_some hfind
    obtain ⟨point, hpoint, rfl⟩ := Option.map_eq_some_iff.1 hd
    exact roundsBack_of_gridPoint? hpoint

theorem shortest_zero (tie : Tie) : shortest tie 0 = ⟨0, 0⟩ := if_pos rfl

/-- The nearest code to the shortest decimal of a finite double is that of the double. -/
theorem isNearest_shortest (tie : Tie) {code : Nat} (hcode : code < infinityCode) :
    IsNearest (shortest tie code).value code := by
  by_cases hzero : code = 0
  · subst hzero
    have hvalue : (shortest tie 0).value = 0 := by rw [shortest_zero, Decimal.value, Nat.cast_zero, zero_mul]
    rw [hvalue]
    exact isNearest_zero le_rfl (by rw [mul_zero]; exact magnitude_nonneg 1)
  · exact (roundsBack_shortest tie hzero).isNearest hzero hcode

end Double

/-! ## Text without exponent part -/

namespace Decimal

variable {d : Decimal}

/-- Without places behind the point, the digits are those of the integer. -/
theorem positional_of_nonneg (h : 0 ≤ d.exponent) (wholeFraction : Bool) : d.positional wholeFraction =
    Text.ofNat (d.significand * 10 ^ d.exponent.toNat) ++ (if wholeFraction then ['.', '0'] else []) := by
  have hplaces : (-d.exponent).toNat = 0 := by omega
  simp only [positional, hplaces, if_true]
  by_cases hzero : d.significand = 0
  · simp [hzero]
  · rw [if_neg hzero, Text.ofNat_mul_pow hzero]

/-- With places behind the point, the point is among the digits, or behind a zero where there are
fewer digits than places. -/
theorem exists_point (h : d.exponent < 0) (wholeFraction : Bool) :
    ∃ whole fraction : Text, d.positional wholeFraction = whole ++ '.' :: fraction ∧ whole ≠ [] ∧
      (whole = ['0'] ∨ whole ++ fraction = Text.ofNat d.significand) ∧
      (∀ c ∈ whole ++ fraction, c.isDigit = true) ∧ fraction.length = (-d.exponent).toNat ∧
      Nat.ofDigitChars 10 (whole ++ fraction) 0 = d.significand := by
  have hplaces : (-d.exponent).toNat ≠ 0 := by omega
  simp only [positional, if_neg hplaces]
  generalize (-d.exponent).toNat = places at hplaces ⊢
  by_cases hinside : places < (Text.ofNat d.significand).length
  · rw [if_pos hinside]
    have hdigits := List.take_append_drop ((Text.ofNat d.significand).length - places) (Text.ofNat d.significand)
    refine ⟨_, _, rfl, ?_, .inr hdigits, ?_, ?_, ?_⟩
    · apply List.ne_nil_of_length_pos
      rw [List.length_take]
      omega
    · rw [hdigits]
      exact fun c hc => Text.isDigit_of_mem_ofNat hc
    · rw [List.length_drop]
      omega
    · rw [hdigits, Text.ofDigitChars_ofNat]
  · rw [if_neg hinside]
    refine ⟨['0'], Text.ofNatPadded places d.significand, rfl, List.cons_ne_nil _ _, .inl rfl, ?_, ?_, ?_⟩
    · exact List.forall_mem_cons.2 ⟨rfl, fun c hc => Text.isDigit_of_mem_ofNatPadded hc⟩
    · rw [Text.ofNatPadded, List.length_append, List.length_replicate]
      omega
    · exact Text.ofDigitChars_ofNatPadded _ _

end Decimal

end FilterQuery
