import FilterQuery.Proofs.Rounding
import Mathlib.Algebra.Order.Field.Power
import Mathlib.Algebra.Order.Ring.Rat
import Mathlib.Tactic.Linarith
import Mathlib.Tactic.NormNum
/-!
# Rounding is to the nearest double

The double of a decimal is the one nearest to its exact rational value, a tie going to the
even code and infinity standing where the next double would be. The search in `floorCode`
finds the two codes around a ratio, and no other code can be nearer than both. Integers
below 2 ^ 53 are magnitudes themselves, so they are kept.
-/

namespace FilterQuery

namespace Double

/-! ## Magnitudes -/

/-- The magnitude of a code, by the exponent and the fraction of its binary64 pattern. The code
of infinity counts as 2 ^ 1024. -/
def magnitude (code : Nat) : ℚ :=
  if code / 2 ^ 52 = 0 then ((code % 2 ^ 52 : Nat) : ℚ) * 2 ^ (-1074 : ℤ)
  else ((2 ^ 52 + code % 2 ^ 52 : Nat) : ℚ) * 2 ^ ((code / 2 ^ 52 : Nat) - 1075 : ℤ)

theorem magnitude_eq_units (code : Nat) : magnitude code = units code / 2 ^ 1074 := by
  simp only [magnitude, units, Nat.pow_eq]
  cases hband : code / 2 ^ 52 with
  | zero => rw [if_pos rfl, if_pos rfl, zpow_neg, div_eq_mul_inv, zpow_ofNat]
  | succ band =>
    have hexponent : ((band + 1 : Nat) : ℤ) - 1075 = band - 1074 := by omega
    rw [if_neg (Nat.succ_ne_zero band), if_neg (Nat.succ_ne_zero band), hexponent, Nat.add_sub_cancel,
      zpow_sub₀ two_ne_zero, zpow_natCast, zpow_ofNat, Nat.cast_mul, Nat.cast_pow, Nat.cast_ofNat, mul_div_assoc]

theorem strictMono_magnitude : StrictMono magnitude := by
  apply strictMono_nat_of_lt_succ
  intro code
  rw [magnitude_eq_units, magnitude_eq_units, units_succ]
  have hstep : (units code : ℚ) < (units code + 2 ^ (code / 2 ^ 52 - 1) : Nat) :=
    Nat.cast_lt.2 (Nat.lt_add_of_pos_right (Nat.two_pow_pos _))
  exact div_lt_div_of_pos_right hstep (by positivity)

theorem magnitude_zero : magnitude 0 = 0 := by simp [magnitude]

theorem magnitude_nonneg (code : Nat) : 0 ≤ magnitude code :=
  magnitude_zero ▸ strictMono_magnitude.monotone (Nat.zero_le code)

theorem magnitude_infinityCode : magnitude infinityCode = 2 ^ 1024 := by
  have hband : infinityCode / 2 ^ 52 = 2047 := by decide
  have hfraction : infinityCode % 2 ^ 52 = 0 := by decide
  have hexponent : ((2047 : Nat) - 1075 : ℤ) = 972 := by decide
  rw [magnitude, hband, hfraction, if_neg (by decide), hexponent, Nat.add_zero, Nat.cast_pow, Nat.cast_ofNat,
    zpow_ofNat, ← pow_add]

/-! ## The nearest code -/

/-- No code is nearer to a magnitude, and of two equally near ones it is the even one. -/
structure IsNearest (q : ℚ) (code : Nat) : Prop where
  le_infinity : code ≤ infinityCode
  nearest : ∀ other ≤ infinityCode, |magnitude code - q| ≤ |magnitude other - q|
  even : ∀ other ≤ infinityCode, other ≠ code → |magnitude other - q| = |magnitude code - q| → code % 2 = 0

variable {q : ℚ} {code : Nat}

/-- Codes up to a given one are at least as far from what is above it. -/
theorem sub_le_abs_of_le {other : Nat} (h : other ≤ code) : q - magnitude code ≤ |magnitude other - q| := by
  rw [abs_sub_comm]
  exact (sub_le_sub_left (strictMono_magnitude.monotone h) q).trans (le_abs_self _)

/-- Codes from a given one on are at least as far from what is below it. -/
theorem sub_le_abs_of_ge {other : Nat} (h : code ≤ other) : magnitude code - q ≤ |magnitude other - q| :=
  (sub_le_sub_right (strictMono_magnitude.monotone h) q).trans (le_abs_self _)

theorem isNearest_of_below (hcode : code < infinityCode) (hlow : magnitude code ≤ q)
    (hnear : q - magnitude code ≤ magnitude (code + 1) - q)
    (heven : q - magnitude code = magnitude (code + 1) - q → code % 2 = 0) : IsNearest q code := by
  have hdistance : |magnitude code - q| = q - magnitude code := by
    rw [abs_sub_comm, abs_of_nonneg (sub_nonneg.2 hlow)]
  refine ⟨hcode.le, fun other _ => ?_, fun other _ hne htie => ?_⟩
  · rw [hdistance]
    rcases le_or_gt other code with hle | hlt
    · exact sub_le_abs_of_le hle
    · exact hnear.trans (sub_le_abs_of_ge hlt)
  · rw [hdistance] at htie
    rcases Nat.lt_or_gt_of_ne hne with hlt | hgt
    · have hfar : q - magnitude other ≤ |magnitude other - q| := sub_le_abs_of_le le_rfl
      have hstrict := strictMono_magnitude hlt
      linarith
    · exact heven (le_antisymm hnear (htie ▸ sub_le_abs_of_ge hgt))

theorem isNearest_of_above (hcode : code < infinityCode) (hhigh : q ≤ magnitude (code + 1))
    (hnear : magnitude (code + 1) - q ≤ q - magnitude code)
    (heven : q - magnitude code = magnitude (code + 1) - q → (code + 1) % 2 = 0) : IsNearest q (code + 1) := by
  have hdistance : |magnitude (code + 1) - q| = magnitude (code + 1) - q :=
    abs_of_nonneg (sub_nonneg.2 hhigh)
  refine ⟨hcode, fun other _ => ?_, fun other _ hne htie => ?_⟩
  · rw [hdistance]
    rcases Nat.lt_or_ge code other with hlt | hle
    · exact sub_le_abs_of_ge hlt
    · exact hnear.trans (sub_le_abs_of_le hle)
  · rw [hdistance] at htie
    rcases Nat.lt_or_gt_of_ne hne with hlt | hgt
    · exact heven (le_antisymm (htie ▸ sub_le_abs_of_le (Nat.le_of_lt_succ hlt)) hnear)
    · have hfar : magnitude other - q ≤ |magnitude other - q| := sub_le_abs_of_ge le_rfl
      have hstrict := strictMono_magnitude hgt
      linarith

/-- From 2 ^ 1024 on, infinity is the nearest. -/
theorem isNearest_infinityCode (h : magnitude infinityCode ≤ q) : IsNearest q infinityCode := by
  refine ⟨le_rfl, fun other hother => ?_, fun _ _ _ _ => by decide⟩
  rw [abs_sub_comm, abs_of_nonneg (sub_nonneg.2 h)]
  exact sub_le_abs_of_le hother

/-- Up to half of the least positive double, zero is the nearest. -/
theorem isNearest_zero (h : 0 ≤ q) (hhalf : 2 * q ≤ magnitude 1) : IsNearest q 0 := by
  refine isNearest_of_below (by decide) (magnitude_zero ▸ h) ?_ fun _ => rfl
  rw [magnitude_zero, Nat.zero_add]
  linarith

/-- Two codes that are both nearest have no code between them, so one of them is odd. -/
theorem IsNearest.unique {other : Nat} (h : IsNearest q code) (h' : IsNearest q other) : code = other := by
  by_contra hne
  wlog hlt : code < other generalizing code other
  · exact this h' h (Ne.symm hne) (lt_of_le_of_ne (not_lt.1 hlt) (Ne.symm hne))
  have htie : |magnitude other - q| = |magnitude code - q| :=
    le_antisymm (h'.nearest code h.le_infinity) (h.nearest other h'.le_infinity)
  have hcode := h.even other h'.le_infinity (Ne.symm hne) htie
  have hother := h'.even code h.le_infinity hne htie.symm
  have hnext : code + 1 < other := by omega
  have hnearest := h.nearest (code + 1) (hnext.le.trans h'.le_infinity)
  have hbelow := strictMono_magnitude (Nat.lt_succ_self code)
  have habove := strictMono_magnitude hnext
  -- the code between is nearer than both
  rcases abs_cases (magnitude code - q) with h1 | h1 <;> rcases abs_cases (magnitude other - q) with h2 | h2 <;>
    rcases abs_cases (magnitude (code + 1) - q) with h3 | h3 <;> linarith

/-- A magnitude is nearest to itself. -/
theorem IsNearest.magnitude_eq {exact : Nat} (h : IsNearest q code) (hexact : exact ≤ infinityCode)
    (hq : magnitude exact = q) : magnitude code = q := by
  have hle := h.nearest exact hexact
  rw [hq, sub_self, abs_zero] at hle
  exact sub_eq_zero.1 (abs_nonpos_iff.1 hle)

/-! ## Ratios and decimals -/

section Ratio

variable {num den : Nat} (hden : 0 < den)

include hden in
theorem magnitude_le_div_iff : magnitude code ≤ (num : ℚ) / (den * 2 ^ 1074) ↔ units code * den ≤ num := by
  rw [magnitude_eq_units, ← div_div, div_le_div_iff_of_pos_right (by positivity), le_div_iff₀ (Nat.cast_pos.2 hden)]
  exact_mod_cast Iff.rfl

include hden in
theorem two_mul_div_lt_iff {other : Nat} : 2 * ((num : ℚ) / (den * 2 ^ 1074)) < magnitude code + magnitude other ↔
    2 * num < (units code + units other) * den := by
  rw [magnitude_eq_units, magnitude_eq_units, ← add_div, ← div_div, ← mul_div_assoc,
    div_lt_div_iff_of_pos_right (by positivity), ← mul_div_assoc, div_lt_iff₀ (Nat.cast_pos.2 hden)]
  exact_mod_cast Iff.rfl

include hden in
theorem lt_two_mul_div_iff {other : Nat} : magnitude code + magnitude other < 2 * ((num : ℚ) / (den * 2 ^ 1074)) ↔
    (units code + units other) * den < 2 * num := by
  rw [magnitude_eq_units, magnitude_eq_units, ← add_div, ← div_div, ← mul_div_assoc,
    div_lt_div_iff_of_pos_right (by positivity), ← mul_div_assoc, lt_div_iff₀ (Nat.cast_pos.2 hden)]
  exact_mod_cast Iff.rfl

include hden in
theorem isNearest_nearestCode : IsNearest ((num : ℚ) / (den * 2 ^ 1074)) (nearestCode num den) := by
  unfold nearestCode
  obtain ⟨⟨hle, hbelow⟩, hnext⟩ := floorCode_spec num den
  generalize floorCode num den = low at hle hbelow hnext ⊢
  rw [← magnitude_le_div_iff hden] at hbelow hnext
  simp only [← two_mul_div_lt_iff hden, ← lt_two_mul_div_iff hden]
  generalize (num : ℚ) / (den * 2 ^ 1074) = q at *
  by_cases hlast : low = infinityCode
  · rw [if_pos hlast, hlast]
    exact isNearest_infinityCode (hlast ▸ hbelow)
  have hlow : low < infinityCode := lt_of_le_of_ne hle hlast
  have habove : q < magnitude (low + 1) := not_le.1 fun h => hnext ⟨hlow, h⟩
  rw [if_neg hlast]
  split_ifs with hdown hup
  · exact isNearest_of_below hlow hbelow (by linarith) fun h => by linarith
  · exact isNearest_of_above hlow habove.le (by linarith) fun h => by linarith
  · -- in the middle, the even one of the two
    rcases Nat.mod_two_eq_zero_or_one low with heven | hodd
    · rw [heven, Nat.add_zero]
      exact isNearest_of_below hlow hbelow (by linarith) fun _ => heven
    · rw [hodd]
      exact isNearest_of_above hlow habove.le (by linarith) fun _ => by omega

include hden in
theorem isNearest_ratio : IsNearest ((num : ℚ) / den) (nearestCode (num * Nat.pow 2 1074) den) := by
  -- the exponent stays a name, so that nothing computes the power
  generalize hexponent : 1074 = exponent
  have hcancel : ((num * Nat.pow 2 exponent : Nat) : ℚ) / (den * 2 ^ 1074) = num / den := by
    rw [hexponent, Nat.cast_mul, Nat.pow_eq, Nat.cast_pow, Nat.cast_ofNat,
      mul_div_mul_right _ _ (pow_ne_zero exponent two_ne_zero)]
  exact hcancel ▸ isNearest_nearestCode hden

end Ratio

end Double

/-- The rational that a decimal is. -/
def Decimal.value (d : Decimal) : ℚ := d.significand * 10 ^ d.exponent

theorem Decimal.value_nonneg (d : Decimal) : 0 ≤ d.value := mul_nonneg (Nat.cast_nonneg _) (zpow_nonneg (by norm_num) _)

theorem Decimal.value_eq_div (d : Decimal) :
    d.value = ((d.significand * 10 ^ d.exponent.toNat : Nat) : ℚ) / (10 ^ (-d.exponent).toNat : Nat) := by
  rcases d.exponent.eq_nat_or_neg with ⟨n, hn | hn⟩
  · simp [Decimal.value, hn]
  · simp [Decimal.value, hn, div_eq_mul_inv]

namespace Double

theorem isNearest_value_of_large {d : Decimal} (hzero : d.significand ≠ 0) (h : 308 < d.exponent) :
    IsNearest d.value infinityCode := by
  apply isNearest_infinityCode
  have hone : (1 : ℚ) ≤ d.significand := Nat.one_le_cast.2 (Nat.one_le_iff_ne_zero.2 hzero)
  have hpow : (10 : ℚ) ^ (309 : ℤ) ≤ 10 ^ d.exponent := zpow_le_zpow_right₀ (by norm_num) h
  have hlarge : (2 ^ 1024 : Nat) ≤ 10 ^ 309 := by decide +kernel
  calc magnitude infinityCode = 2 ^ 1024 := magnitude_infinityCode
    _ ≤ 10 ^ 309 := by exact_mod_cast hlarge
    _ ≤ 10 ^ d.exponent := by rwa [zpow_ofNat] at hpow
    _ ≤ d.significand * 10 ^ d.exponent := le_mul_of_one_le_left (by positivity) hone

theorem isNearest_value_of_small {d : Decimal} (h : d.significand.log2 + 3 * d.exponent < -1080) :
    IsNearest d.value 0 := by
  have hnegative : d.exponent ≤ 0 := by omega
  have hsignificand : (d.significand : ℚ) < 2 ^ ((d.significand.log2 + 1 : Nat) : ℤ) := by
    rw [zpow_natCast]
    exact_mod_cast Nat.lt_log2_self
  -- a negative power of ten is at most that power of eight
  have hten : (10 : ℚ) ^ d.exponent ≤ 2 ^ (3 * d.exponent) := by
    obtain ⟨n, hn⟩ := Int.exists_eq_neg_ofNat hnegative
    rw [hn, zpow_mul, zpow_neg, zpow_neg, zpow_natCast, zpow_natCast]
    exact inv_anti₀ (by positivity) (pow_le_pow_left₀ (by norm_num) (by norm_num) n)
  have hvalue : d.value < 2 ^ (-1080 : ℤ) := by
    calc d.value ≤ d.significand * 2 ^ (3 * d.exponent) := mul_le_mul_of_nonneg_left hten (Nat.cast_nonneg _)
      _ < 2 ^ ((d.significand.log2 + 1 : Nat) : ℤ) * 2 ^ (3 * d.exponent) :=
        mul_lt_mul_of_pos_right hsignificand (by positivity)
      _ = 2 ^ (((d.significand.log2 + 1 : Nat) : ℤ) + 3 * d.exponent) := (zpow_add₀ two_ne_zero _ _).symm
      _ ≤ 2 ^ (-1080 : ℤ) := zpow_le_zpow_right₀ (by norm_num) (by omega)
  have hleast : magnitude 1 = 2 ^ (-1074 : ℤ) := by simp [magnitude]
  have hhalf : (2 : ℚ) * 2 ^ (-1080 : ℤ) ≤ 2 ^ (-1074 : ℤ) := by
    rw [← zpow_one_add₀ two_ne_zero]
    exact zpow_le_zpow_right₀ (by norm_num) (by norm_num)
  apply isNearest_zero
  · exact d.value_nonneg
  · rw [hleast]
    linarith

/-- The double of a decimal is the nearest one, also where its exponent alone settles it. -/
theorem exists_ofDecimal (negative : Bool) (d : Decimal) :
    ∃ code, IsNearest d.value code ∧ ofDecimal negative d = ofCode negative code := by
  unfold ofDecimal
  split_ifs with hzero hlarge hsmall
  · have hvalue : d.value = 0 := by rw [Decimal.value, hzero, Nat.cast_zero, zero_mul]
    refine ⟨0, hvalue ▸ isNearest_zero le_rfl ?_, rfl⟩
    rw [mul_zero]
    exact magnitude_nonneg 1
  · exact ⟨infinityCode, isNearest_value_of_large hzero hlarge, rfl⟩
  · exact ⟨0, isNearest_value_of_small hsmall, rfl⟩
  · refine ⟨_, ?_, rfl⟩
    rw [Decimal.value_eq_div]
    exact isNearest_ratio (Nat.pow_pos (by decide))

/-! ## Whole numbers -/

/-- The rational that a finite double is. -/
def toRat? : Double → Option ℚ
  | finite negative code => some (if negative then -magnitude code else magnitude code)
  | _ => none

/-- A quotient by a power of two is an integer as the division without rest says. -/
theorem ite_mod_eq_some_iff (negative : Bool) (size exponent : Nat) (n : ℤ) :
    (if size % Nat.pow 2 exponent = 0 then
      some (if negative then -((size / Nat.pow 2 exponent : Nat) : ℤ) else (size / Nat.pow 2 exponent : Nat))
    else none) = some n ↔ (if negative then -((size : ℚ) / 2 ^ exponent) else size / 2 ^ exponent) = n := by
  have hpow : ((2 : ℚ) ^ exponent) = (2 ^ exponent : Nat) := by rw [Nat.cast_pow, Nat.cast_ofNat]
  rw [hpow, Nat.pow_eq]
  have hpos : (0 : ℚ) < (2 ^ exponent : Nat) := Nat.cast_pos.2 (Nat.two_pow_pos exponent)
  generalize 2 ^ exponent = one at hpos ⊢
  constructor
  · intro h
    split at h
    · next hwhole =>
      obtain ⟨count, rfl⟩ := Nat.dvd_of_mod_eq_zero hwhole
      rw [Nat.mul_div_cancel_left _ (Nat.cast_pos.1 hpos), Option.some_inj] at h
      rw [Nat.cast_mul, mul_div_cancel_left₀ _ hpos.ne', ← h]
      cases negative
      · exact (Int.cast_natCast count).symm
      · simp
    · cases h
  · intro h
    have hsize : size = n.natAbs * one := by
      have hquotient : (size : ℚ) / one = n.natAbs := by
        rw [Nat.cast_natAbs, Int.cast_abs, ← h]
        cases negative <;> simp [abs_of_nonneg (div_nonneg (Nat.cast_nonneg size) hpos.le)]
      rw [div_eq_iff hpos.ne'] at hquotient
      exact_mod_cast hquotient
    rw [hsize, Nat.cast_mul, mul_div_cancel_right₀ _ hpos.ne', Nat.cast_natAbs] at h
    rw [hsize, if_pos (Nat.mul_mod_left ..), Nat.mul_div_cancel _ (Nat.cast_pos.1 hpos), Option.some_inj,
      Int.natCast_natAbs]
    cases negative
    · rw [if_neg Bool.false_ne_true] at h ⊢
      exact_mod_cast h
    · rw [if_pos rfl] at h ⊢
      exact_mod_cast h

theorem toInt?_eq_some_iff {d : Double} {n : ℤ} : d.toInt? = some n ↔ d.toRat? = some (n : ℚ) := by
  cases d with
  | nan => simp [toInt?, toRat?]
  | infinite => simp [toInt?, toRat?]
  | finite negative code =>
    simp only [toInt?, toRat?, ite_mod_eq_some_iff, magnitude_eq_units, Option.some_inj]

/-- Natural numbers below 2 ^ 53 are magnitudes of doubles. -/
theorem exists_magnitude_eq_natCast {n : Nat} (h : n < 2 ^ 53) : ∃ code < infinityCode, magnitude code = n := by
  by_cases hn : n = 0
  · exact ⟨0, by decide, by rw [magnitude_zero, hn, Nat.cast_zero]⟩
  have hlog : n.log2 < 53 := (Nat.log2_lt hn).2 h
  obtain ⟨shift, hshift⟩ := Nat.exists_eq_add_of_le (Nat.le_of_lt_succ hlog)
  -- the significand has its first bit at place 52
  have hlow : 2 ^ 52 ≤ n * 2 ^ shift := by
    rw [hshift, pow_add]
    exact Nat.mul_le_mul_right _ (Nat.log2_self_le hn)
  have hhigh : n * 2 ^ shift < 2 ^ 53 := by
    have hbound := Nat.mul_lt_mul_of_pos_right (Nat.lt_log2_self : n < _) (Nat.two_pow_pos shift)
    rwa [← pow_add, Nat.add_right_comm, ← hshift] at hbound
  obtain ⟨fraction, hfraction⟩ := Nat.exists_eq_add_of_le hlow
  refine ⟨(1023 + n.log2) * 2 ^ 52 + fraction, ?_, ?_⟩
  · rw [infinityCode]
    omega
  · have hband : ((1023 + n.log2) * 2 ^ 52 + fraction) / 2 ^ 52 = 1023 + n.log2 := by omega
    have hrest : ((1023 + n.log2) * 2 ^ 52 + fraction) % 2 ^ 52 = fraction := by omega
    have hexponent : ((1023 + n.log2 : Nat) : ℤ) - 1075 = -shift := by omega
    rw [magnitude, hrest, hband, if_neg (by omega), ← hfraction, hexponent, zpow_neg, zpow_natCast,
      Nat.cast_mul, Nat.cast_pow, Nat.cast_ofNat, mul_inv_cancel_right₀ (by positivity)]

end Double

end FilterQuery
