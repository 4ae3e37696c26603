import FilterQuery.Json.Printer
import FilterQuery.Proofs.Digit
import FilterQuery.Proofs.Number.Shortest
import Mathlib.Data.List.TakeDrop
/-!
# Written numbers are read

The JSON text of a number is a literal of the reader: digits, a fraction and an exponent
part. An integer of 64 bits is read as itself, and a finite double as some double, which
need not be the same one. No double is refused, because its shortest decimal is not above
the middle between the two greatest doubles, and the greatest double is tried.
-/

namespace FilterQuery

namespace Json

/-- Digits that may stand before the point of a number. -/
structure IsWhole (digits : Text) : Prop where
  isDigit : ∀ c ∈ digits, c.isDigit = true
  ne_nil : digits ≠ []
  noZero : ¬ (digits.head? = some '0' ∧ 1 < digits.length)

/-- The first digits of a number may stand before the point: only zero begins with a zero, and it
has one digit. -/
theorem isWhole_of_prefix {n : Nat} {digits : Text} (hne : digits ≠ []) (h : digits <+: Text.ofNat n) :
    IsWhole digits where
  isDigit c hc := Text.isDigit_of_mem_ofNat (h.subset hc)
  ne_nil := hne
  noZero := by
    rintro ⟨hzero, hlong⟩
    have hhead : (Text.ofNat n).head? = some '0' := by
      obtain ⟨rest, hrest⟩ := h
      rw [← hrest, List.head?_append, hzero, Option.some_or]
    by_cases hn : n = 0
    · have hlength : digits.length ≤ 1 := by
        subst hn
        exact h.length_le
      omega
    · exact Text.head?_ofNat_ne hn hhead

theorem isWhole_ofNat (n : Nat) : IsWhole (Text.ofNat n) := isWhole_of_prefix (Text.ofNat_ne_nil n) List.prefix_rfl

/-! ## Literals -/

/-- A fraction as it stands in a number. -/
def fractionText : Option Text → Text
  | none => []
  | some digits => '.' :: digits

/-- An exponent part as it stands in a number. -/
def exponentText : Option Int → Text
  | none => []
  | some n => 'e' :: (if n < 0 then '-' else '+') :: Text.ofNat n.natAbs

/-- A number at the head of a text ends before the rest. -/
def EndsNumber (rest : Text) : Prop := ∀ c ∈ rest.head?, c.isDigit = false ∧ c ≠ '.' ∧ c ≠ 'e' ∧ c ≠ 'E'

theorem fraction?_append {fraction : Option Text} {rest : Text}
    (h : ∀ digits ∈ fraction, digits ≠ [] ∧ ∀ c ∈ digits, c.isDigit = true)
    (hrest : ∀ c ∈ rest.head?, c.isDigit = false ∧ c ≠ '.') :
    fraction? (fractionText fraction ++ rest) = some (fraction, rest) := by
  cases fraction with
  | none =>
    cases rest with
    | nil => rfl
    | cons c rest =>
      have hpoint : c ≠ '.' := (hrest c rfl).2
      unfold fraction?
      split
      · next heq => exact absurd (List.cons.inj heq).1 hpoint
      · rfl
  | some digits =>
    obtain ⟨hne, hdigits⟩ := h digits rfl
    simp only [fractionText, List.cons_append, fraction?]
    rw [Text.span_append hdigits fun c hc => (hrest c hc).1, if_neg hne]

theorem exponent?_append (exponent : Option Int) {rest : Text} (h : EndsNumber rest) :
    exponent? (exponentText exponent ++ rest) = some (exponent, rest) := by
  cases exponent with
  | none =>
    cases rest with
    | nil => rfl
    | cons c rest =>
      obtain ⟨-, -, hlower, hupper⟩ := h c rfl
      simp [exponentText, exponent?, hlower, hupper]
  | some n =>
    have hspan : (Text.ofNat n.natAbs ++ rest).span Char.isDigit = (Text.ofNat n.natAbs, rest) :=
      Text.span_append (fun c hc => Text.isDigit_of_mem_ofNat hc) (fun c hc => (h c hc).1)
    by_cases hn : n < 0
    · have hvalue : -(n.natAbs : Int) = n := by omega
      simp only [exponentText, if_pos hn, List.cons_append, exponent?, DecimalLiteral.takeSign, true_or, if_true,
        hspan, Text.ofNat_ne_nil, if_false, Text.natValue?_ofNat]
      exact congrArg (fun value => some (some value, rest)) hvalue
    · have hvalue : (n.natAbs : Int) = n := by omega
      simp only [exponentText, if_neg hn, List.cons_append, exponent?, DecimalLiteral.takeSign, true_or, if_true,
        hspan, Text.ofNat_ne_nil, if_false, Text.natValue?_ofNat, Bool.false_eq_true]
      exact congrArg (fun value => some (some value, rest)) hvalue

theorem endsNumber_exponentText (exponent : Option Int) {rest : Text} (h : EndsNumber rest) :
    ∀ c ∈ (exponentText exponent ++ rest).head?, c.isDigit = false ∧ c ≠ '.' := by
  cases exponent with
  | none => exact fun c hc => ⟨(h c hc).1, (h c hc).2.1⟩
  | some n =>
    rintro c ⟨⟩
    decide

theorem endsDigits_fractionText (fraction : Option Text) {rest : Text} (h : ∀ c ∈ rest.head?, c.isDigit = false) :
    ∀ c ∈ (fractionText fraction ++ rest).head?, c.isDigit = false := by
  cases fraction with
  | none => exact h
  | some digits =>
    rintro c ⟨⟩
    decide

/-- A number is read for what its parts say, whatever stands behind it. -/
theorem readNumber?_append (negative : Bool) {whole : Text} (fraction : Option Text) (exponent : Option Int)
    {rest : Text} (hwhole : IsWhole whole)
    (hfraction : ∀ digits ∈ fraction, digits ≠ [] ∧ ∀ c ∈ digits, c.isDigit = true)
    (hrest : EndsNumber rest) :
    readNumber? ((if negative then ['-'] else []) ++
        (whole ++ (fractionText fraction ++ (exponentText exponent ++ rest)))) =
      (numberOf? ⟨negative, whole, fraction.getD [], exponent.getD 0,
        fraction.isNone && exponent.isNone⟩).map (·, rest) := by
  have hexponent := endsNumber_exponentText exponent hrest
  have hspan := Text.span_append hwhole.isDigit
    (endsDigits_fractionText fraction fun c hc => (hexponent c hc).1)
  have hvalid : ¬ (whole = [] ∨ (whole.head? = some '0' ∧ 1 < whole.length)) := by
    rintro (h | h)
    · exact hwhole.ne_nil h
    · exact hwhole.noZero h
  have hnumber : readNumber? ((if negative then ['-'] else []) ++
      (whole ++ (fractionText fraction ++ (exponentText exponent ++ rest)))) =
      (do
        let number ← numberOf? ⟨negative, whole, fraction.getD [], exponent.getD 0,
          fraction.isNone && exponent.isNone⟩
        some (number, rest)) := by
    cases negative with
    | true =>
      simp only [readNumber?, if_true, List.cons_append, List.nil_append, hspan, if_neg hvalid,
        fraction?_append hfraction hexponent, exponent?_append exponent hrest, Option.bind_eq_bind, Option.bind_some]
    | false =>
      obtain ⟨c, digits, rfl⟩ := List.exists_cons_of_ne_nil hwhole.ne_nil
      have hsign : c ≠ '-' := by
        rintro rfl
        exact absurd (hwhole.isDigit '-' List.mem_cons_self) (by decide)
      simp only [Bool.false_eq_true, if_false, List.nil_append]
      unfold readNumber?
      split
      next heq =>
        split at heq
        · next htext => exact absurd (List.cons.inj htext).1 hsign
        · obtain ⟨rfl, rfl⟩ := Prod.mk.inj heq
          simp only [hspan, if_neg hvalid, fraction?_append hfraction hexponent,
            exponent?_append exponent hrest, Option.bind_eq_bind, Option.bind_some]
  rw [hnumber]
  cases numberOf? ⟨negative, whole, fraction.getD [], exponent.getD 0, fraction.isNone && exponent.isNone⟩ <;> rfl

/-! ## Significands -/

theorem significand_take {value : Nat} (count : Nat) (digits : Text) (h : value < 2 ^ 64) :
    (significand.take value count digits).1 < 2 ^ 64 ∧
      (significand.take value count digits).2 ≤ count + digits.length ∧
      (significand.take value count digits).1 *
          10 ^ (count + digits.length - (significand.take value count digits).2) ≤
        Nat.ofDigitChars 10 digits value := by
  induction digits generalizing value count with
  | nil => simpa [significand.take] using h
  | cons c digits ih =>
    rw [significand.take, Nat.ofDigitChars_cons, Nat.mul_comm 10]
    by_cases hnext : value * 10 + (c.toNat - '0'.toNat) < Nat.pow 2 64
    · have hrest := ih (count + 1) hnext
      rw [Nat.add_right_comm, Nat.add_assoc] at hrest
      simpa only [if_pos hnext, List.length_cons] using hrest
    · have hvalue : value * 10 ^ (digits.length + 1) ≤
          Nat.ofDigitChars 10 digits (value * 10 + (c.toNat - '0'.toNat)) := by
        rw [Nat.ofDigitChars_eq_ofDigitChars_zero, Nat.pow_succ, Nat.mul_comm value, Nat.mul_assoc,
          Nat.mul_comm 10]
        exact (Nat.mul_le_mul_left _ (Nat.le_add_right _ _)).trans (Nat.le_add_right _ _)
      simp only [if_neg hnext, List.length_cons, Nat.add_sub_cancel_left]
      exact ⟨h, Nat.le_add_right _ _, hvalue⟩

/-- The significand fits into 64 bits, and the digits that it leaves out make the number greater. -/
theorem significand_spec (digits : Text) :
    (significand digits).1 < 2 ^ 64 ∧ (significand digits).2 ≤ digits.length ∧
      (significand digits).1 * 10 ^ (digits.length - (significand digits).2) ≤ Nat.ofDigitChars 10 digits 0 := by
  have h := significand_take 0 digits (show 0 < 2 ^ 64 by decide)
  rwa [Nat.zero_add] at h

end Json

/-! ## Shortest decimals -/

namespace Double

/-- The decimal is not above the middle between the code and the next one. -/
def AtMostMiddle (code : Nat) (d : Decimal) : Prop :=
  d.significand * (Nat.pow 10 d.exponent.toNat * Nat.pow 2 1075) ≤
    (units code + units (code + 1)) * Nat.pow 10 (-d.exponent).toNat

theorem atMostMiddle_shortest (tie : Tie) (code : Nat) : AtMostMiddle code (shortest tie code) := by
  by_cases hcode : code = 0
  · subst hcode
    rw [shortest_zero, AtMostMiddle, Nat.zero_mul]
    exact Nat.zero_le _
  · exact (roundsBack_shortest tie hcode).le.2

/-- All finite doubles but the greatest are written as decimals up to the greatest middle. -/
theorem AtMostMiddle.le_greatestMiddle {code : Nat} {d : Decimal} (h : AtMostMiddle code d)
    (hcode : code + 1 < infinityCode) :
    d.significand * 10 ^ d.exponent.toNat ≤ greatestMiddle * 10 ^ (-d.exponent).toNat := by
  have hgreatest : units (infinityCode - 2) + units (infinityCode - 1) ≤ greatestMiddle * Nat.pow 2 1075 := by
    decide +kernel
  have hmiddle : units code + units (code + 1) ≤ greatestMiddle * Nat.pow 2 1075 := by
    apply (Nat.add_le_add (monotone_units _) (monotone_units _)).trans hgreatest
    · exact Nat.le_sub_of_add_le (by omega)
    · exact Nat.le_sub_of_add_le hcode
  have hscale : 0 < Nat.pow 2 1075 := by decide +kernel
  unfold AtMostMiddle at h
  generalize Nat.pow 2 1075 = scale at *
  have hscaled := h.trans (Nat.mul_le_mul_right _ hmiddle)
  rw [← Nat.mul_assoc, Nat.mul_right_comm greatestMiddle] at hscaled
  exact Nat.le_of_mul_le_mul_right hscaled hscale

end Double

namespace Json

/-! ## Doubles -/

/-- A number with a fraction or an exponent is taken up to the greatest middle. -/
theorem isSome_numberOf? {literal : DecimalLiteral} (hplain : literal.isPlain = false)
    (h : (significand (literal.whole ++ literal.fraction)).1 *
        10 ^ (literal.exponent + literal.whole.length - (significand (literal.whole ++ literal.fraction)).2).toNat ≤
      Double.greatestMiddle) : (numberOf? literal).isSome = true := by
  have hscale := isSome_scale? literal.negative (significand_spec _).1 h
  simpa [numberOf?, hplain] using hscale

/-- The significand that is read of a decimal's digits, with the digits left out made up for. -/
theorem significand_le_greatestMiddle {d : Decimal}
    (h : d.significand * 10 ^ d.exponent.toNat ≤ Double.greatestMiddle * 10 ^ (-d.exponent).toNat) :
    (significand (Text.ofNat d.significand)).1 *
        10 ^ (d.exponent + (Text.ofNat d.significand).length - (significand (Text.ofNat d.significand)).2).toNat ≤
      Double.greatestMiddle := by
  obtain ⟨hsmall, hcount, hvalue⟩ := significand_spec (Text.ofNat d.significand)
  rw [Text.ofDigitChars_ofNat] at hvalue
  generalize (significand (Text.ofNat d.significand)).1 = value at *
  generalize (significand (Text.ofNat d.significand)).2 = count at *
  generalize (Text.ofNat d.significand).length = length at *
  by_cases hnegative : d.exponent + length - count < 0
  · have hzero : (d.exponent + length - count).toNat = 0 := by omega
    have hlarge : 2 ^ 64 ≤ Double.greatestMiddle := by decide +kernel
    rw [hzero, Nat.pow_zero, Nat.mul_one]
    exact hsmall.le.trans hlarge
  · have hexponent : (d.exponent + length - count).toNat + (-d.exponent).toNat =
        (length - count) + d.exponent.toNat := by omega
    have hpow : 0 < 10 ^ (-d.exponent).toNat := Nat.pow_pos (by decide)
    refine Nat.le_of_mul_le_mul_right ?_ hpow
    calc value * 10 ^ (d.exponent + length - count).toNat * 10 ^ (-d.exponent).toNat
        = value * 10 ^ (length - count) * 10 ^ d.exponent.toNat := by
          rw [Nat.mul_assoc, ← Nat.pow_add, hexponent, Nat.pow_add, Nat.mul_assoc]
      _ ≤ d.significand * 10 ^ d.exponent.toNat := Nat.mul_le_mul_right _ hvalue
      _ ≤ Double.greatestMiddle * 10 ^ (-d.exponent).toNat := h

/-- Text without exponent part is digits and a fraction. -/
theorem exists_positional {d : Decimal} (h : d.leading ≤ 15) :
    ∃ whole fraction, d.positional true = whole ++ fractionText (some fraction) ∧ IsWhole whole ∧
      fraction ≠ [] ∧ (∀ c ∈ fraction, c.isDigit = true) ∧ whole.length ≤ 16 := by
  unfold Decimal.leading at h
  rcases le_or_gt 0 d.exponent with hexponent | hexponent
  · refine ⟨_, ['0'], Decimal.positional_of_nonneg hexponent true, isWhole_ofNat _, List.cons_ne_nil _ _,
      List.forall_mem_singleton.2 rfl, ?_⟩
    by_cases hzero : d.significand = 0
    · rw [hzero, Nat.zero_mul]
      decide
    · rw [Text.ofNat_mul_pow hzero, List.length_append, List.length_replicate]
      omega
  · obtain ⟨whole, fraction, htext, hne, hwhole, hdigit, hlength, -⟩ := Decimal.exists_point hexponent true
    have hfraction : fraction ≠ [] := List.ne_nil_of_length_pos (by omega)
    refine ⟨whole, fraction, htext, ?_, hfraction, (List.forall_mem_append.1 hdigit).2, ?_⟩
    · rcases hwhole with rfl | hall
      · exact isWhole_ofNat 0
      · exact isWhole_of_prefix hne ⟨fraction, hall⟩
    · rcases hwhole with rfl | hall
      · decide
      · rw [← hall, List.length_append] at h
        omega

/-- Text with an exponent part is a digit, perhaps a fraction, and the exponent of the digit. -/
theorem exists_scientific (d : Decimal) :
    ∃ fraction, d.scientific =
        (Text.ofNat d.significand).take 1 ++ (fractionText fraction ++ exponentText (some d.leading)) ∧
      fraction.getD [] = (Text.ofNat d.significand).drop 1 ∧
      ∀ digits ∈ fraction, digits ≠ [] ∧ ∀ c ∈ digits, c.isDigit = true := by
  by_cases hnil : (Text.ofNat d.significand).drop 1 = []
  · refine ⟨none, ?_, hnil.symm, nofun⟩
    simp only [Decimal.scientific, if_pos hnil, fractionText, exponentText, List.append_assoc]
  · refine ⟨some ((Text.ofNat d.significand).drop 1), ?_, rfl, ?_⟩
    · simp only [Decimal.scientific, if_neg hnil, fractionText, exponentText, List.append_assoc]
    · rintro digits ⟨⟩
      exact ⟨hnil, fun c hc => Text.isDigit_of_mem_ofNat (List.mem_of_mem_drop hc)⟩

theorem isSome_numberOf?_positional (negative : Bool) {whole fraction : Text} (h : whole.length ≤ 16) :
    (numberOf? ⟨negative, whole, fraction, 0, false⟩).isSome = true := by
  apply isSome_numberOf? rfl
  have hsmall := (significand_spec (whole ++ fraction)).1
  have hpow := Double.ten_pow_le (0 + whole.length - (significand (whole ++ fraction)).2 : Int).toNat 16 (by omega)
  have hlarge : 2 ^ 64 * 10 ^ 16 ≤ Double.greatestMiddle := by decide +kernel
  exact (Nat.mul_le_mul hsmall.le hpow).trans hlarge

theorem isSome_numberOf?_scientific (negative : Bool) {code : Nat} (hcode : code < infinityCode) :
    (numberOf? ⟨negative, (Text.ofNat (Double.shortest .toEven code).significand).take 1,
      (Text.ofNat (Double.shortest .toEven code).significand).drop 1,
      (Double.shortest .toEven code).leading, false⟩).isSome = true := by
  by_cases hlast : code = infinityCode - 1
  · -- the decimal of the greatest double is above the middle, but its digits are all read
    have hgreatest : Double.shortest .toEven (infinityCode - 1) = ⟨17976931348623157, 292⟩ := by decide +kernel
    rw [hlast, hgreatest]
    cases negative <;> decide +kernel
  · have hmiddle := (Double.atMostMiddle_shortest .toEven code).le_greatestMiddle (by omega)
    have hone : ((Text.ofNat (Double.shortest .toEven code).significand).take 1).length = 1 := by
      rw [List.length_take]
      exact Nat.min_eq_left Nat.length_toDigits_pos
    apply isSome_numberOf? rfl
    simp only [List.take_append_drop, hone, Decimal.leading]
    rw [show ∀ e : Int, e - 1 + (1 : Nat) = e from fun e => Int.sub_add_cancel e 1]
    exact significand_le_greatestMiddle hmiddle

theorem write_eq (negative : Bool) (code : Nat) : layout.write negative code =
    (if negative then ['-'] else []) ++
      (if -5 ≤ (Double.shortest .toEven code).leading ∧ (Double.shortest .toEven code).leading ≤ 15 then
        (Double.shortest .toEven code).positional true
      else (Double.shortest .toEven code).scientific) := by
  simp only [Layout.write, layout, Bool.and_eq_true]
  congr 1
  split
  · next h => rw [if_pos ⟨of_decide_eq_true h.1, of_decide_eq_true h.2⟩]
  · next h => rw [if_neg fun hp => h ⟨decide_eq_true hp.1, decide_eq_true hp.2⟩]

/-- A finite double is written as parts of a number that the reader takes. -/
theorem exists_write (negative : Bool) {code : Nat} (hcode : code < infinityCode) :
    ∃ whole fraction exponent, layout.write negative code =
        (if negative then ['-'] else []) ++ (whole ++ (fractionText fraction ++ exponentText exponent)) ∧
      IsWhole whole ∧ (∀ digits ∈ fraction, digits ≠ [] ∧ ∀ c ∈ digits, c.isDigit = true) ∧
      (numberOf? ⟨negative, whole, fraction.getD [], exponent.getD 0,
        fraction.isNone && exponent.isNone⟩).isSome = true := by
  rw [write_eq]
  by_cases hpositional : -5 ≤ (Double.shortest .toEven code).leading ∧ (Double.shortest .toEven code).leading ≤ 15
  · obtain ⟨whole, fraction, htext, hwhole, hne, hdigits, hlength⟩ := exists_positional hpositional.2
    refine ⟨whole, some fraction, none, ?_, hwhole, ?_, isSome_numberOf?_positional negative hlength⟩
    · rw [if_pos hpositional, htext, exponentText, List.append_nil]
    · rintro digits ⟨⟩
      exact ⟨hne, hdigits⟩
  · obtain ⟨fraction, htext, hdrop, hdigits⟩ := exists_scientific (Double.shortest .toEven code)
    have hnumber := isSome_numberOf?_scientific negative hcode
    rw [← hdrop] at hnumber
    refine ⟨(Text.ofNat (Double.shortest .toEven code).significand).take 1, fraction,
      some (Double.shortest .toEven code).leading, ?_, ?_, hdigits, ?_⟩
    · rw [if_neg hpositional, htext]
    · exact isWhole_of_prefix (by simp [Text.ofNat_ne_nil]) (List.take_prefix _ _)
    · rwa [Option.isNone_some, Bool.and_false]

/-- A finite double is read, whatever ends its text. -/
theorem exists_readNumber?_write (negative : Bool) {code : Nat} (hcode : code < infinityCode) :
    ∃ number, ∀ rest, EndsNumber rest →
      readNumber? (layout.write negative code ++ rest) = some (number, rest) := by
  obtain ⟨whole, fraction, exponent, htext, hwhole, hfraction, hsome⟩ := exists_write negative hcode
  obtain ⟨number, hnumber⟩ := Option.isSome_iff_exists.1 hsome
  refine ⟨number, fun rest hrest => ?_⟩
  have hread := readNumber?_append negative fraction exponent hwhole hfraction hrest
  rw [hnumber, Option.map_some] at hread
  rw [htext]
  simpa only [List.append_assoc] using hread

theorem integer?_ofNat {n : Int} (hleast : -2 ^ 63 ≤ n) (hgreatest : n < 2 ^ 64) :
    integer? (decide (n < 0)) (Text.ofNat n.natAbs) = some (.integer n) := by
  by_cases hn : n < 0
  · have hvalid : ¬ (n.natAbs = 0 ∨ Nat.pow 2 63 < n.natAbs) := by
      simp only [Nat.pow_eq]
      omega
    have hvalue : -(n.natAbs : Int) = n := by omega
    simp only [integer?, Text.natValue?_ofNat, Option.bind_eq_bind, Option.bind_some, hn, decide_true, if_true,
      if_neg hvalid, hvalue]
  · have hvalid : n.natAbs < Nat.pow 2 64 := by
      simp only [Nat.pow_eq]
      omega
    have hvalue : (n.natAbs : Int) = n := by omega
    simp only [integer?, Text.natValue?_ofNat, Option.bind_eq_bind, Option.bind_some, hn, decide_false,
      Bool.false_eq_true, if_false, if_pos hvalid, hvalue]

/-- An integer of 64 bits is read as itself. -/
theorem readNumber?_ofInt {n : Int} (hleast : -2 ^ 63 ≤ n) (hgreatest : n < 2 ^ 64) {rest : Text}
    (hrest : EndsNumber rest) : readNumber? (Text.ofInt n ++ rest) = some (.integer n, rest) := by
  have hread := readNumber?_append (decide (n < 0)) none none (isWhole_ofNat n.natAbs) nofun hrest
  have hnumber : numberOf? ⟨decide (n < 0), Text.ofNat n.natAbs, [], 0, true⟩ = some (.integer n) := by
    simp only [numberOf?, if_true, integer?_ofNat hleast hgreatest]
    rfl
  simp only [decide_eq_true_eq, fractionText, exponentText, List.nil_append, Option.getD_none, Option.isNone_none,
    Bool.and_self, hnumber, Option.map_some] at hread
  simpa only [Text.ofInt, List.append_assoc] using hread

end Json

end FilterQuery
