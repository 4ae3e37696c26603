import FilterQuery.Json.Reader
import Mathlib.Algebra.Ring.Int.Defs
import Mathlib.Algebra.Ring.Nat
import Mathlib.Order.Monotone.Basic
/-!
# Rounding is monotone

The codes of doubles are ordered as their magnitudes, so the search in `floorCode`
finds the greatest code below a ratio, and the nearest code grows with the ratio.
A product of doubles therefore stays finite when a factor gets smaller, which settles
by a bound at each exponent when `Json.scale?` takes a decimal.
-/

namespace FilterQuery

namespace Double

/-! ## Magnitudes -/

theorem units_succ (code : Nat) : units (code + 1) = units code + 2 ^ (code / 2 ^ 52 - 1) := by
  simp only [units, Nat.pow_eq, Nat.reducePow]
  by_cases hlast : code % 4503599627370496 + 1 = 4503599627370496
  · -- the next code is the first of its band
    have hband : (code + 1) / 4503599627370496 = code / 4503599627370496 + 1 := by omega
    have hnext : (code + 1) % 4503599627370496 = 0 := by omega
    have hfraction : code % 4503599627370496 = 4503599627370495 := by omega
    rw [hband, hnext, hfraction, if_neg (Nat.succ_ne_zero _)]
    cases code / 4503599627370496 with
    | zero => rfl
    | succ band =>
      rw [if_neg (Nat.succ_ne_zero _), Nat.add_sub_cancel, Nat.add_sub_cancel, Nat.pow_succ]
      omega
  · have hband : (code + 1) / 4503599627370496 = code / 4503599627370496 := by omega
    have hfraction : (code + 1) % 4503599627370496 = code % 4503599627370496 + 1 := by omega
    rw [hband, hfraction]
    by_cases hzero : code / 4503599627370496 = 0
    · simp [hzero]
    · rw [if_neg hzero, if_neg hzero, ← Nat.add_assoc, Nat.succ_mul]

theorem monotone_units : Monotone units := by
  apply monotone_nat_of_le_succ
  intro code
  rw [units_succ]
  exact Nat.le_add_right _ _

/-! ## The nearest code -/

/-- The search ends at a code that passes and whose successor does not. -/
theorem raise_spec {passes : Nat → Bool} (bit : Nat) {code : Nat} (h : passes code = true)
    (hnext : passes (code + 2 ^ bit) = false) :
    passes (raise passes bit code) = true ∧ passes (raise passes bit code + 1) = false := by
  induction bit generalizing code with
  | zero => exact ⟨h, hnext⟩
  | succ bit ih =>
    simp only [raise, Nat.pow_eq]
    cases hp : passes (code + 2 ^ bit) with
    | false => exact ih h hp
    | true =>
      apply ih hp
      rwa [Nat.add_assoc, ← Nat.two_mul, Nat.mul_comm, ← Nat.pow_succ]

theorem floorCode_spec (num den : Nat) :
    (floorCode num den ≤ infinityCode ∧ units (floorCode num den) * den ≤ num) ∧
      ¬ (floorCode num den + 1 ≤ infinityCode ∧ units (floorCode num den + 1) * den ≤ num) := by
  have hzero : units 0 = 0 := rfl
  let passes (code : Nat) : Bool := code ≤ infinityCode && units code * den ≤ num
  have hfirst : passes 0 = true := by simp [passes, hzero]
  have hlast : passes (0 + 2 ^ 63) = false := by simp [passes, infinityCode]
  have hspec := raise_spec 63 hfirst hlast
  simpa only [floorCode, passes, Bool.and_eq_true, Bool.and_eq_false_iff, decide_eq_true_eq,
    decide_eq_false_iff_not, not_and_or] using hspec

theorem le_floorCode {num den code : Nat} (hcode : code ≤ infinityCode) (h : units code * den ≤ num) :
    code ≤ floorCode num den := by
  by_contra hlt
  apply (floorCode_spec num den).2
  have hle : floorCode num den + 1 ≤ code := by omega
  exact ⟨hle.trans hcode, (Nat.mul_le_mul_right den (monotone_units hle)).trans h⟩

theorem floorCode_mono {num num' : Nat} (h : num ≤ num') (den : Nat) :
    floorCode num den ≤ floorCode num' den := by
  obtain ⟨⟨hcode, hunits⟩, -⟩ := floorCode_spec num den
  exact le_floorCode hcode (hunits.trans h)

theorem floorCode_le_nearestCode (num den : Nat) : floorCode num den ≤ nearestCode num den := by
  simp only [nearestCode]
  split_ifs <;> omega

theorem nearestCode_le (num den : Nat) : nearestCode num den ≤ floorCode num den + 1 := by
  simp only [nearestCode]
  split_ifs <;> omega

theorem nearestCode_mono {num num' : Nat} (h : num ≤ num') (den : Nat) :
    nearestCode num den ≤ nearestCode num' den := by
  by_cases hlt : floorCode num den < floorCode num' den
  · calc nearestCode num den ≤ floorCode num den + 1 := nearestCode_le num den
      _ ≤ floorCode num' den := hlt
      _ ≤ nearestCode num' den := floorCode_le_nearestCode num' den
  · -- between the same two codes, the same middle decides
    have hfloor : floorCode num' den = floorCode num den := Nat.le_antisymm (by omega) (floorCode_mono h den)
    simp only [nearestCode, hfloor]
    split_ifs <;> omega

/-! ## Finite products -/

theorem isFinite_ofCode (negative : Bool) (code : Nat) :
    (ofCode negative code).isFinite = true ↔ code < infinityCode := by
  unfold ofCode
  split <;> simp_all [isFinite]

/-- The code of the double nearest to a natural number. -/
def wholeCode (n : Nat) : Nat := nearestCode (n * Nat.pow 2 1074) 1

theorem ofNat_eq_ofCode (negative : Bool) (n : Nat) : ofNat negative n = ofCode negative (wholeCode n) := by
  rw [ofNat, ofRatio, wholeCode]

theorem wholeCode_mono {n m : Nat} (h : n ≤ m) : wholeCode n ≤ wholeCode m :=
  nearestCode_mono (Nat.mul_le_mul_right _ h) 1

/-- Both natural numbers and the product of the doubles nearest to them round to finite doubles. -/
def FiniteProduct (n m : Nat) : Prop :=
  wholeCode n < infinityCode ∧ wholeCode m < infinityCode ∧
    nearestCode (units (wholeCode n) * units (wholeCode m) * Nat.pow 2 1074) (Nat.pow 2 2148) < infinityCode

instance (n m : Nat) : Decidable (FiniteProduct n m) := inferInstanceAs (Decidable (_ ∧ _ ∧ _))

theorem FiniteProduct.of_le {n n' m m' : Nat} (h : FiniteProduct n' m') (hn : n ≤ n') (hm : m ≤ m') :
    FiniteProduct n m := by
  obtain ⟨hfirst, hsecond, hproduct⟩ := h
  have hunits : units (wholeCode n) * units (wholeCode m) ≤ units (wholeCode n') * units (wholeCode m') :=
    Nat.mul_le_mul (monotone_units (wholeCode_mono hn)) (monotone_units (wholeCode_mono hm))
  refine ⟨(wholeCode_mono hn).trans_lt hfirst, (wholeCode_mono hm).trans_lt hsecond, ?_⟩
  exact (nearestCode_mono (Nat.mul_le_mul_right _ hunits) _).trans_lt hproduct

theorem FiniteProduct.isFinite {n m : Nat} (h : FiniteProduct n m) (negative : Bool) :
    (product negative (ofNat negative n) (ofNat negative m)).isFinite = true := by
  obtain ⟨hfirst, hsecond, hproduct⟩ := h
  rw [ofNat_eq_ofCode, ofNat_eq_ofCode, ofCode, dif_pos hfirst, ofCode, dif_pos hsecond, product, ofRatio,
    isFinite_ofCode]
  simpa only using hproduct

theorem ofDecimal_one (negative : Bool) {exponent : Nat} (h : exponent ≤ 308) :
    ofDecimal negative ⟨1, exponent⟩ = ofNat negative (10 ^ exponent) := by
  have hlog : Nat.log2 1 = 0 := by decide
  have hlarge : ¬ (308 < (exponent : Int)) := by omega
  have hsmall : ¬ (((0 : Nat) : Int) + 3 * (exponent : Int) < -1080) := by omega
  have hscale : (-(exponent : Int)).toNat = 0 := by omega
  simp only [ofDecimal, hlog, if_neg hlarge, if_neg hsmall, hscale, Int.toNat_natCast, Nat.one_mul, Nat.pow_eq,
    Nat.pow_zero, ofNat]
  simp

theorem ten_pow_le (n m : Nat) (h : n ≤ m) : 10 ^ n ≤ 10 ^ m := Nat.pow_le_pow_right (by decide) h

/-- The middle between the two greatest doubles, which is whole. -/
def greatestMiddle : Nat := 2 ^ 1024 - 3 * 2 ^ 970

/-- At the great exponents, a significand of 64 bits may reach up to the middle. -/
theorem finiteProduct_greatestMiddle : ∀ i < 21,
    FiniteProduct (min (2 ^ 64 - 1) (greatestMiddle / 10 ^ (288 + i))) (10 ^ (288 + i)) := by
  decide +kernel

theorem finiteProduct_of_le_greatestMiddle {significand exponent : Nat} (h : significand < 2 ^ 64)
    (hexponent : exponent ≤ 308) (hmiddle : significand * 10 ^ exponent ≤ greatestMiddle) :
    FiniteProduct significand (10 ^ exponent) := by
  by_cases hlarge : 288 ≤ exponent
  · obtain ⟨i, rfl⟩ := Nat.exists_eq_add_of_le hlarge
    apply (finiteProduct_greatestMiddle i (by omega)).of_le _ le_rfl
    exact le_min (Nat.le_sub_one_of_lt h) ((Nat.le_div_iff_mul_le (Nat.pow_pos (by decide))).2 hmiddle)
  · -- below, all of the 64 bits may be used
    have hbits : 2 ^ 64 - 1 ≤ min (2 ^ 64 - 1) (greatestMiddle / 10 ^ 288) := by decide +kernel
    have hleast := finiteProduct_greatestMiddle 0 (by decide)
    rw [Nat.add_zero] at hleast
    apply hleast.of_le
    · exact (Nat.le_sub_one_of_lt h).trans hbits
    · exact ten_pow_le exponent 288 (by omega)

end Double

namespace Json

/-- A decimal that is not above the middle between the two greatest doubles is taken. -/
theorem isSome_scale? (negative : Bool) {significand : Nat} {exponent : Int} (h : significand < 2 ^ 64)
    (hmiddle : significand * 10 ^ exponent.toNat ≤ Double.greatestMiddle) :
    (scale? negative ⟨significand, exponent⟩).isSome = true := by
  by_cases hzero : significand = 0
  · simp [scale?, hzero]
  by_cases hnegative : exponent < 0
  · simp [scale?, hzero, hnegative]
  obtain ⟨n, rfl⟩ : ∃ n : Nat, exponent = n := Int.eq_ofNat_of_zero_le (not_lt.1 hnegative)
  rw [Int.toNat_natCast] at hmiddle
  have hn : n ≤ 308 := by
    by_contra hlarge
    have hpow : 10 ^ 309 ≤ 10 ^ n := Double.ten_pow_le 309 n (by omega)
    have hone : 10 ^ n ≤ significand * 10 ^ n := Nat.le_mul_of_pos_left _ (Nat.pos_of_ne_zero hzero)
    have hsmall : Double.greatestMiddle < 10 ^ 309 := by decide +kernel
    exact absurd (hpow.trans (hone.trans hmiddle)) (not_le.2 hsmall)
  have hfinite := (Double.finiteProduct_of_le_greatestMiddle h hn hmiddle).isFinite negative
  rw [← Double.ofDecimal_one negative hn] at hfinite
  simp only [scale?, if_neg hzero, if_neg hnegative, hfinite, if_true, Option.isSome_some]

end Json

end FilterQuery
