import FilterQuery.Proofs.Number.Spelling
/-!
# Numbers of a fixed width

The fields of a written date have a fixed number of digits, with zeros in front. Such digits
name the numbers below a power of ten, and `FixedDigits.append_lt_append_iff` says that they are
in the order of these numbers when texts are compared character by character.
-/

namespace FilterQuery

namespace Text

theorem isDigit_of_mem_ofNatPadded {width n : ℕ} {c : Char} (h : c ∈ ofNatPadded width n) : c.isDigit = true := by
  rcases List.mem_append.1 h with h | h
  · rw [(List.mem_replicate.1 h).2]
    rfl
  · exact isDigit_of_mem_ofNat h

theorem ofDigitChars_ofNatPadded (width n : ℕ) : Nat.ofDigitChars 10 (ofNatPadded width n) 0 = n := by
  rw [ofNatPadded, Nat.ofDigitChars_append, Nat.ofDigitChars_replicate_zero, Nat.mul_zero, ofDigitChars_ofNat]

theorem length_ofNatPadded {width n : ℕ} (hwidth : 0 < width) (h : n < 10 ^ width) :
    (ofNatPadded width n).length = width := by
  have hlength : (ofNat n).length ≤ width := (Nat.length_toDigits_le_iff (by decide) hwidth).2 h
  rw [ofNatPadded, List.length_append, List.length_replicate]
  omega

/-- The first digit counts the powers of ten that the rest of the digits do not reach. -/
theorem ofDigitChars_cons (c : Char) (digits : Text) : Nat.ofDigitChars 10 (c :: digits) 0 =
    10 ^ digits.length * (c.toNat - '0'.toNat) + Nat.ofDigitChars 10 digits 0 := by
  rw [Nat.ofDigitChars_cons, Nat.mul_zero, Nat.zero_add, Nat.ofDigitChars_eq_ofDigitChars_zero]

theorem ofDigitChars_lt {digits : Text} (h : ∀ c ∈ digits, c.isDigit = true) :
    Nat.ofDigitChars 10 digits 0 < 10 ^ digits.length := by
  induction digits with
  | nil => decide
  | cons c digits ih =>
    have hfirst := (toNat_of_isDigit (h c List.mem_cons_self)).2
    have hrest := ih fun d hd => h d (List.mem_cons_of_mem _ hd)
    rw [ofDigitChars_cons, List.length_cons, Nat.pow_succ]
    calc 10 ^ digits.length * (c.toNat - '0'.toNat) + Nat.ofDigitChars 10 digits 0
        < 10 ^ digits.length * (c.toNat - '0'.toNat) + 10 ^ digits.length := by omega
      _ = 10 ^ digits.length * (c.toNat - '0'.toNat + 1) := by rw [Nat.mul_succ]
      _ ≤ 10 ^ digits.length * 10 := Nat.mul_le_mul_left _ hfirst

/-! ## The order of digits -/

theorem mul_add_lt_mul_add {unit a b r : ℕ} (hr : r < unit) (h : a < b) (s : ℕ) :
    unit * a + r < unit * b + s := by
  calc unit * a + r < unit * a + unit := by omega
    _ = unit * (a + 1) := by rw [Nat.mul_succ]
    _ ≤ unit * b := Nat.mul_le_mul_left _ h
    _ ≤ unit * b + s := Nat.le_add_right _ _

/-- The higher place decides if the lower ones stay below its unit. -/
theorem mul_add_lt_mul_add_iff {unit a b r s : ℕ} (hr : r < unit) (hs : s < unit) :
    unit * a + r < unit * b + s ↔ a < b ∨ a = b ∧ r < s := by
  rcases lt_trichotomy a b with hlt | rfl | hgt
  · exact iff_of_true (mul_add_lt_mul_add hr hlt s) (.inl hlt)
  · rw [Nat.add_lt_add_iff_left]
    simp
  · have hno := mul_add_lt_mul_add hs hgt r
    omega

theorem mul_add_eq_mul_add_iff {unit a b r s : ℕ} (hr : r < unit) (hs : s < unit) :
    unit * a + r = unit * b + s ↔ a = b ∧ r = s := by
  have hlt := mul_add_lt_mul_add_iff (a := a) (b := b) hr hs
  have hgt := mul_add_lt_mul_add_iff (a := b) (b := a) hs hr
  omega

theorem lt_iff_of_isDigit {c d : Char} (hc : c.isDigit = true) (hd : d.isDigit = true) :
    c < d ↔ c.toNat - '0'.toNat < d.toNat - '0'.toNat := by
  have hlt : c < d ↔ c.toNat < d.toNat := UInt32.lt_iff_toNat_lt
  have hlow := (toNat_of_isDigit hc).1
  have hlow' := (toNat_of_isDigit hd).1
  rw [hlt]
  omega

theorem eq_iff_of_isDigit {c d : Char} (hc : c.isDigit = true) (hd : d.isDigit = true) :
    c = d ↔ c.toNat - '0'.toNat = d.toNat - '0'.toNat := by
  have hlow := (toNat_of_isDigit hc).1
  have hlow' := (toNat_of_isDigit hd).1
  rw [← Char.toNat_inj]
  omega

/-- Texts that begin with as many digits compare first by the numbers that these name. -/
theorem append_lt_append_iff {a b : Text} (hlength : a.length = b.length) (ha : ∀ c ∈ a, c.isDigit = true)
    (hb : ∀ c ∈ b, c.isDigit = true) (s t : Text) : a ++ s < b ++ t ↔
      Nat.ofDigitChars 10 a 0 < Nat.ofDigitChars 10 b 0 ∨
        Nat.ofDigitChars 10 a 0 = Nat.ofDigitChars 10 b 0 ∧ s < t := by
  induction a generalizing b with
  | nil =>
    obtain rfl := List.length_eq_zero_iff.1 hlength.symm
    simp
  | cons c a ih =>
    cases b with
    | nil => cases hlength
    | cons d b =>
      have hlength : a.length = b.length := Nat.succ.inj hlength
      have hc := ha c List.mem_cons_self
      have hd := hb d List.mem_cons_self
      have ha := fun e he => ha e (List.mem_cons_of_mem _ he)
      have hb := fun e he => hb e (List.mem_cons_of_mem _ he)
      have hboundA := ofDigitChars_lt ha
      have hboundB := ofDigitChars_lt hb
      rw [hlength] at hboundA
      rw [List.cons_append, List.cons_append, List.cons_lt_cons_iff, ih hlength ha hb, lt_iff_of_isDigit hc hd,
        eq_iff_of_isDigit hc hd, ofDigitChars_cons, ofDigitChars_cons, hlength,
        mul_add_lt_mul_add_iff hboundA hboundB, mul_add_eq_mul_add_iff hboundA hboundB]
      tauto

end Text

/-! ## Digits of a width -/

/-- A run of decimal ASCII digits of a fixed length. -/
structure FixedDigits (width : ℕ) extends Digits where
  length_chars : chars.length = width

namespace FixedDigits

variable {width : ℕ}

/-- The number that the digits name. -/
def value (digits : FixedDigits width) : ℕ := digits.toDigits.value

theorem natValue?_chars (digits : FixedDigits width) : Text.natValue? 10 digits.chars = some digits.value :=
  digits.toDigits.natValue?_chars

theorem value_lt (digits : FixedDigits width) : digits.value < 10 ^ width := by
  have hlt := Text.ofDigitChars_lt digits.isDigit
  rwa [digits.length_chars] at hlt

/-- The digits of a number that the width is enough for. -/
def ofNat {n : ℕ} (hwidth : 0 < width) (h : n < 10 ^ width) : FixedDigits width where
  chars := Text.ofNatPadded width n
  isDigit _ hc := Text.isDigit_of_mem_ofNatPadded hc
  length_chars := Text.length_ofNatPadded hwidth h

@[simp]
theorem value_ofNat {n : ℕ} (hwidth : 0 < width) (h : n < 10 ^ width) : (ofNat hwidth h).value = n :=
  Text.ofDigitChars_ofNatPadded width n

/-- Fields of one width compare first by their numbers. -/
theorem append_lt_append_iff (a b : FixedDigits width) (s t : Text) :
    a.chars ++ s < b.chars ++ t ↔ a.value < b.value ∨ a.value = b.value ∧ s < t :=
  Text.append_lt_append_iff (a.length_chars.trans b.length_chars.symm) a.isDigit b.isDigit s t

end FixedDigits

end FilterQuery
