import FilterQuery.Text.Digit
import Mathlib.Data.List.TakeDrop
import Mathlib.Data.Nat.Digits.Defs
/-!
# Digits and what they name

A text is read as a number in a base if all of its characters are digits of the base, and it
is the number of Mathlib's `Nat.ofDigits`. The decimal digits of a number are read back as it.
-/

namespace FilterQuery

/-! ## Digits of a base -/

/-- The digits of the bases up to sixteen, in the order of their values. -/
def digitsOfBase (base : Nat) : Text := "0123456789abcdef".toList.take base

/-- A digit of one of the three bases is worth its place among them, letters in either case. -/
theorem digitValue?_eq {base : Nat} (hbase : base ∈ [16, 8, 2]) (c : Char) : digitValue? base c =
    if c.toLower ∈ digitsOfBase base then some ((digitsOfBase base).idxOf c.toLower) else none := by
  by_cases hc : c.toNat < 128
  · have hascii : ∀ base ∈ [16, 8, 2], ∀ n < 128, digitValue? base (Char.ofNat n) =
        if (Char.ofNat n).toLower ∈ digitsOfBase base then some ((digitsOfBase base).idxOf (Char.ofNat n).toLower)
        else none := by decide +kernel
    have hchar := hascii base hbase c.toNat hc
    rwa [Char.ofNat_toNat] at hchar
  · have hupto : ∀ d : Char, d.toNat < 128 → ¬ c ≤ d := fun d hd hle =>
      hc ((UInt32.le_iff_toNat_le.1 hle).trans_lt hd)
    have hlower : c.toLower = c := dif_neg fun h => hupto 'Z' (by decide) h.2
    have hdigit : c.isDigit = false := by
      by_contra h
      rw [Bool.not_eq_false, Char.isDigit, Bool.and_eq_true, decide_eq_true_eq, decide_eq_true_eq] at h
      exact hupto '9' (by decide) h.2
    have hmem : c ∉ digitsOfBase base := fun hmem => by
      have hsmall : ∀ d ∈ "0123456789abcdef".toList, d.toNat < 128 := by simp
      exact hc (hsmall c (List.mem_of_mem_take hmem))
    rw [hlower, if_neg hmem, digitValue?, hdigit, if_neg Bool.false_ne_true,
      if_neg fun h => hupto 'z' (by decide) h.2, if_neg fun h => hupto 'Z' (by decide) h.2]
    rfl

namespace Text

theorem foldlM_digitValue?_eq_some_iff {base value n : Nat} {digits : Text} :
    digits.foldlM (fun value c => (digitValue? base c).map (value * base + ·)) value = some n ↔
      ∃ values : List Nat, digits.map (digitValue? base) = values.map some ∧
        values.foldl (fun value digit => digit + base * value) value = n := by
  induction digits generalizing value with
  | nil =>
    constructor
    · intro h
      exact ⟨[], rfl, Option.some.inj h⟩
    · rintro ⟨values, hvalues, rfl⟩
      rw [List.map_eq_nil_iff.1 hvalues.symm]
      rfl
  | cons c digits ih =>
    rw [List.foldlM_cons]
    cases hdigit : digitValue? base c with
    | none =>
      constructor
      · nofun
      · rintro ⟨_ | ⟨digit, values⟩, hvalues, -⟩
        · cases hvalues
        · rw [List.map_cons, hdigit] at hvalues
          cases hvalues
    | some digit =>
      refine ih.trans ⟨?_, ?_⟩
      · rintro ⟨values, hvalues, hvalue⟩
        refine ⟨digit :: values, by rw [List.map_cons, hdigit, hvalues, List.map_cons], ?_⟩
        rw [List.foldl_cons, Nat.add_comm, Nat.mul_comm]
        exact hvalue
      · rintro ⟨_ | ⟨first, values⟩, hvalues, hvalue⟩
        · cases hvalues
        · rw [List.map_cons, hdigit, List.map_cons] at hvalues
          obtain ⟨hfirst, hrest⟩ := List.cons.inj hvalues
          obtain rfl := Option.some.inj hfirst
          rw [List.foldl_cons, Nat.add_comm, Nat.mul_comm] at hvalue
          exact ⟨values, hrest, hvalue⟩

/-- A text names a number in a base if all of its characters are digits of the base. -/
theorem natValue?_eq_some_iff {base n : Nat} {digits : Text} : natValue? base digits = some n ↔
    ∃ values : List Nat, digits.map (digitValue? base) = values.map some ∧ Nat.ofDigits base values.reverse = n := by
  simp only [natValue?, foldlM_digitValue?_eq_some_iff, Nat.ofDigits_eq_foldr, List.foldr_reverse]
  rfl

theorem isSome_digitValue?_of_natValue? {base n : Nat} {digits : Text} (h : natValue? base digits = some n) :
    ∀ c ∈ digits, (digitValue? base c).isSome = true := by
  obtain ⟨values, hvalues, -⟩ := natValue?_eq_some_iff.1 h
  intro c hc
  obtain ⟨digit, -, hdigit⟩ := List.mem_map.1 (hvalues ▸ List.mem_map_of_mem hc)
  rw [← hdigit]
  rfl

theorem isDigit_of_natValue? {n : Nat} {digits : Text} (h : natValue? 10 digits = some n) :
    ∀ c ∈ digits, c.isDigit = true := by
  intro c hc
  have hdigit := isSome_digitValue?_of_natValue? h c hc
  by_contra hno
  -- letters are worth ten and more
  simp only [digitValue?, if_neg hno] at hdigit
  split_ifs at hdigit <;> simp at hdigit

/-! ## Decimal digits -/

theorem isDigit_of_mem_ofNat {n : Nat} {c : Char} (h : c ∈ ofNat n) : c.isDigit = true :=
  Nat.isDigit_of_mem_toDigits (by decide) (by decide) h

theorem toNat_of_isDigit {c : Char} (h : c.isDigit = true) : '0'.toNat ≤ c.toNat ∧ c.toNat - '0'.toNat < 10 := by
  simp only [Char.isDigit, ge_iff_le, Bool.and_eq_true, decide_eq_true_eq] at h
  have hlow : '0'.toNat ≤ c.toNat := UInt32.le_iff_toNat_le.1 h.1
  have hhigh : c.toNat ≤ '9'.toNat := UInt32.le_iff_toNat_le.1 h.2
  have hzero : '0'.toNat = 48 := rfl
  have hnine : '9'.toNat = 57 := rfl
  omega

/-- What is checked of the ten digits holds of any digit. -/
theorem forall_isDigit {P : Char → Prop} (h : ∀ n < 10, P (Char.ofNat (48 + n))) {c : Char} (hc : c.isDigit = true) : P c := by
  obtain ⟨hlow, hhigh⟩ := toNat_of_isDigit hc
  have hcode : 48 + (c.toNat - '0'.toNat) = c.toNat := Nat.add_sub_cancel' hlow
  have hdigit := h (c.toNat - '0'.toNat) hhigh
  rwa [hcode, Char.ofNat_toNat] at hdigit

theorem digitValue?_of_isDigit {c : Char} (h : c.isDigit = true) :
    digitValue? 10 c = some (c.toNat - '0'.toNat) := by
  have hsmall := (toNat_of_isDigit h).2
  simp only [digitValue?, h, if_true, Option.filter_some, hsmall, decide_true]

theorem natValue?_of_isDigit {digits : Text} (h : ∀ c ∈ digits, c.isDigit = true) :
    natValue? 10 digits = some (Nat.ofDigitChars 10 digits 0) := by
  have hfrom : ∀ value, digits.foldlM (fun value c => (digitValue? 10 c).map (value * 10 + ·)) value =
      some (Nat.ofDigitChars 10 digits value) := by
    induction digits with
    | nil => exact fun value => rfl
    | cons c digits ih =>
      intro value
      have hrest := ih (fun d hd => h d (List.mem_cons_of_mem _ hd)) (value * 10 + (c.toNat - '0'.toNat))
      rw [List.foldlM_cons, digitValue?_of_isDigit (h c List.mem_cons_self), Nat.ofDigitChars_cons, Nat.mul_comm 10]
      exact hrest
  exact hfrom 0

theorem ofDigitChars_ofNat (n : Nat) : Nat.ofDigitChars 10 (ofNat n) 0 = n := Nat.ofDigitChars_ten_toDigits

theorem natValue?_ofNat (n : Nat) : natValue? 10 (ofNat n) = some n := by
  rw [natValue?_of_isDigit fun c hc => isDigit_of_mem_ofNat hc, ofDigitChars_ofNat]

theorem ofNat_ne_nil (n : Nat) : ofNat n ≠ [] := Nat.toDigits_ne_nil

/-- Only zero has a zero in front. -/
theorem head?_ofNat_ne {n : Nat} (h : n ≠ 0) : (ofNat n).head? ≠ some '0' := by
  induction n using Nat.strongRecOn with
  | ind n ih =>
    by_cases hn : n < 10
    · have hdigit : ∀ k < 10, k ≠ 0 → some (Nat.digitChar k) ≠ some '0' := by decide
      rw [ofNat, Nat.toDigits_of_lt_base hn]
      exact hdigit n hn h
    · have hhead := ih (n / 10) (by omega) (by omega)
      obtain ⟨c, hc⟩ := Option.isSome_iff_exists.1 (List.isSome_head?.2 (ofNat_ne_nil (n / 10)))
      rw [ofNat] at hc hhead
      rw [ofNat, Nat.toDigits_of_base_le (by decide) (not_lt.1 hn), List.head?_append, hc, Option.some_or, ← hc]
      exact hhead

/-- The digits of a number with zeros behind them. -/
theorem ofNat_mul_pow {n : Nat} (h : n ≠ 0) (zeros : Nat) :
    ofNat (n * 10 ^ zeros) = ofNat n ++ List.replicate zeros '0' := by
  induction zeros with
  | zero => simp
  | succ zeros ih =>
    have hpos : 0 < n * 10 ^ zeros := Nat.mul_pos (Nat.pos_of_ne_zero h) (Nat.pow_pos (by decide))
    rw [Nat.pow_succ, ← Nat.mul_assoc, ofNat, Nat.toDigits_of_base_le (by decide) (by omega),
      Nat.mul_div_cancel _ (by decide), Nat.mul_mod_left, ← ofNat, ih, List.replicate_succ', List.append_assoc]
    rfl

/-- The run of characters of a class in front ends where the text goes on with another one. -/
theorem span_append {p : Char → Bool} {run rest : Text} (h : ∀ c ∈ run, p c = true)
    (hrest : ∀ c ∈ rest.head?, p c = false) : (run ++ rest).span p = (run, rest) := by
  have hnone : rest.takeWhile p = [] ∧ rest.dropWhile p = rest := by
    cases rest with
    | nil => exact ⟨rfl, rfl⟩
    | cons c rest => simp [hrest c rfl]
  rw [List.span_eq_takeWhile_dropWhile, List.takeWhile_append_of_pos h, List.dropWhile_append_of_pos h,
    hnone.1, hnone.2, List.append_nil]

end Text

end FilterQuery
