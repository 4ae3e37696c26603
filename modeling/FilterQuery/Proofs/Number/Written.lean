import FilterQuery.FieldName
import FilterQuery.Proofs.FixedDigits
import FilterQuery.Proofs.Instant.Scalar
import FilterQuery.Proofs.Number.Shortest
/-!
# Written numbers among the scalars

An integer and a double in a field name are written as decimals without exponent, which the
reader of scalars takes for numbers again. An integer of 64 bits is read as itself. A double is
read as itself, because the nearest double to its shortest decimal is the double, or as the
integer whose digits it is written with.
-/

namespace FilterQuery

/-! ## Decimals among the scalars -/

namespace Text

theorem toLower_not_mem_of_isDigit {c : Char} (h : c.isDigit = true) : c.toLower ∉ "truefalse".toList :=
  forall_isDigit (P := (·.toLower ∉ "truefalse".toList)) (by decide) h

end Text

namespace DecimalSpelling

variable (s : DecimalSpelling)

theorem isBlank_of_mem_text : ∀ c ∈ s.text, isBlank c = false := by
  have hsign : ∀ sign : Sign, ∀ c ∈ sign.text, isBlank c = false := by
    intro sign
    cases sign with
    | absent => exact List.forall_mem_nil _
    | plus => exact List.forall_mem_singleton.2 rfl
    | minus => exact List.forall_mem_singleton.2 rfl
  have hdigits : ∀ digits : Digits, ∀ c ∈ digits.chars, isBlank c = false := fun digits c hc =>
    Text.isBlank_of_isDigit (digits.isDigit c hc)
  simp only [text, List.forall_mem_append]
  refine ⟨hsign s.sign, hdigits s.whole, ?_, ?_⟩
  · cases s.fraction with
    | none => exact List.forall_mem_nil _
    | some digits => exact List.forall_mem_cons.2 ⟨rfl, hdigits digits⟩
  · cases s.exponent with
    | none => exact List.forall_mem_nil _
    | some part =>
      have hmark : isBlank part.mark = false := by
        rcases part.isMark with h | h <;> rw [h] <;> rfl
      exact List.forall_mem_cons.2 ⟨hmark, List.forall_mem_append.2 ⟨hsign part.sign, hdigits part.digits⟩⟩

theorem exists_isDigit : ∃ c ∈ s.text, c.isDigit = true := by
  rcases s.hasDigit with hne | ⟨digits, hdigits, hne⟩
  · obtain ⟨c, hc⟩ := List.exists_mem_of_ne_nil _ hne
    exact ⟨c, List.mem_append_right _ (List.mem_append_left _ hc), s.whole.isDigit c hc⟩
  · obtain ⟨c, hc⟩ := List.exists_mem_of_ne_nil _ hne
    refine ⟨c, ?_, digits.isDigit c hc⟩
    rw [text, Option.mem_def.1 hdigits]
    exact List.mem_append_right _ (List.mem_append_right _ (List.mem_append_left _ (List.mem_cons_of_mem _ hc)))

/-- A decimal is the number that it names among the scalars. -/
theorem ofScalar_text : Node.ofScalar s.text = .number s.literal.toNumber := by
  obtain ⟨c, hc, hdigit⟩ := s.exists_isDigit
  have hread : Number.read? s.text = some s.literal.toNumber := by
    rw [Number.read?_eq_some_iff, Text.trim_eq_self s.isBlank_of_mem_text]
    exact .decimal s s.names_toNumber
  rw [Node.ofScalar, if_neg (List.ne_nil_of_mem hc),
    Text.bool?_eq_none (Text.toLower_not_mem_of_isDigit hdigit) hc, hread]
  rfl

end DecimalSpelling

/-! ## Integers -/

namespace DecimalSpelling

/-- The spelling of an integer that is written with a sign and digits. -/
def ofNat (negative : Bool) (n : Nat) : DecimalSpelling where
  sign := if negative then .minus else .absent
  whole := ⟨Text.ofNat n, fun _ hc => Text.isDigit_of_mem_ofNat hc⟩
  fraction := none
  exponent := none
  hasDigit := .inl (Text.ofNat_ne_nil n)

variable (negative : Bool) (n : Nat)

theorem text_ofNat : (ofNat negative n).text = (if negative then ['-'] else []) ++ Text.ofNat n := by
  cases negative <;> simp [ofNat, text, fractionText, exponentText, Sign.text]

theorem isMinus_ofNat : (ofNat negative n).sign.isMinus = negative := by
  cases negative <;> rfl

theorem size_ofNat : (ofNat negative n).size = n := by
  simp [size, ofNat, places, exponentValue, Text.ofDigitChars_ofNat]

end DecimalSpelling

/-- An integer of 64 bits is read as itself among the scalars. -/
theorem Node.ofScalar_ofInt {n : ℤ} (hleast : Number.minInteger ≤ n) (hgreatest : n ≤ Number.maxInteger) :
    ofScalar (Text.ofInt n) = number (.integer n) := by
  have htext : (DecimalSpelling.ofNat (decide (n < 0)) n.natAbs).text = Text.ofInt n := by
    simp only [DecimalSpelling.text_ofNat, decide_eq_true_eq, Text.ofInt]
  have hvalue : (DecimalSpelling.ofNat (decide (n < 0)) n.natAbs).value = n := by
    rw [DecimalSpelling.value, DecimalSpelling.isMinus_ofNat, DecimalSpelling.size_ofNat, Nat.cast_natAbs, Int.cast_abs]
    rcases lt_or_ge n 0 with hn | hn
    · rw [decide_eq_true hn, if_pos rfl, abs_of_neg (Int.cast_lt_zero.2 hn), neg_neg]
    · rw [decide_eq_false (not_lt.2 hn), if_neg Bool.false_ne_true, abs_of_nonneg (Int.cast_nonneg hn)]
  have hnames : (DecimalSpelling.ofNat (decide (n < 0)) n.natAbs).Names (.integer n) :=
    .exact ⟨hvalue, .inr ⟨⟨rfl, rfl⟩, hleast, hgreatest⟩⟩
  rw [← htext, DecimalSpelling.ofScalar_text, (DecimalSpelling.names_toNumber _).unique hnames]

/-! ## Doubles -/

namespace DecimalSpelling

/-- The spelling of digits with a point among them. -/
def ofFraction (negative : Bool) (whole fraction : Digits) (h : whole.chars ≠ []) : DecimalSpelling where
  sign := if negative then .minus else .absent
  whole := whole
  fraction := some fraction
  exponent := none
  hasDigit := .inl h

variable (negative : Bool) {whole fraction : Digits} (h : whole.chars ≠ [])

theorem text_ofFraction : (ofFraction negative whole fraction h).text =
    (if negative then ['-'] else []) ++ (whole.chars ++ '.' :: fraction.chars) := by
  cases negative <;> simp [ofFraction, text, fractionText, exponentText, Sign.text]

theorem isMinus_ofFraction : (ofFraction negative whole fraction h).sign.isMinus = negative := by
  cases negative <;> rfl

theorem size_ofFraction {d : Decimal} (hdigits : Nat.ofDigitChars 10 (whole.chars ++ fraction.chars) 0 = d.significand)
    (hexponent : d.exponent = -fraction.chars.length) : (ofFraction negative whole fraction h).size = d.value := by
  simp [size, ofFraction, places, exponentValue, hdigits, hexponent, Decimal.value]

end DecimalSpelling

namespace Decimal

variable {d : Decimal}

theorem value_of_nonneg (h : 0 ≤ d.exponent) : d.value = (d.significand * 10 ^ d.exponent.toNat : Nat) := by
  have hplaces : (-d.exponent).toNat = 0 := by omega
  rw [value_eq_div, hplaces, pow_zero, Nat.cast_one, div_one]

/-- Text without exponent part spells the decimal, and it has a point unless it is an integer. -/
theorem exists_spelling (negative : Bool) (d : Decimal) : ∃ s : DecimalSpelling,
    s.text = (if negative then ['-'] else []) ++ d.positional false ∧ s.sign.isMinus = negative ∧ s.size = d.value ∧
      (s.IsPlain → ∃ n : Nat, d.positional false = Text.ofNat n ∧ d.value = n) := by
  rcases le_or_gt 0 d.exponent with hexponent | hexponent
  · have htext : d.positional false = Text.ofNat (d.significand * 10 ^ d.exponent.toNat) :=
      (positional_of_nonneg hexponent false).trans (List.append_nil _)
    have hvalue := value_of_nonneg hexponent
    refine ⟨.ofNat negative (d.significand * 10 ^ d.exponent.toNat), ?_, DecimalSpelling.isMinus_ofNat .., ?_,
      fun _ => ⟨_, htext, hvalue⟩⟩
    · rw [DecimalSpelling.text_ofNat, htext]
    · rw [DecimalSpelling.size_ofNat, hvalue]
  · obtain ⟨whole, fraction, htext, hne, -, hdigit, hlength, hvalue⟩ := exists_point hexponent false
    have hpart := List.forall_mem_append.1 hdigit
    have hplaces : d.exponent = -fraction.length := by omega
    refine ⟨.ofFraction negative ⟨whole, hpart.1⟩ ⟨fraction, hpart.2⟩ hne, ?_, DecimalSpelling.isMinus_ofFraction ..,
      DecimalSpelling.size_ofFraction _ _ hvalue hplaces, nofun⟩
    rw [DecimalSpelling.text_ofFraction, htext]

end Decimal

theorem Text.ofInt_eq {negative : Bool} {n : Nat} (h : n ≠ 0) :
    ofInt (if negative then -(n : ℤ) else n) = (if negative then ['-'] else []) ++ ofNat n := by
  cases negative with
  | false => simp [ofInt]
  | true =>
    have hpos : 0 < n := Nat.pos_of_ne_zero h
    simp [ofInt, hpos]

namespace Double

theorem fieldText_finite (negative : Bool) (code : Fin infinityCode) : (finite negative code).fieldText =
    (if negative then ['-'] else []) ++ (shortest .up code).positional false := rfl

/-- A spelling near to a double that is no integer below 2 ^ 53 names that double, or an integer
that is spelled with a sign and digits. -/
theorem real_or_plain_of_names {s : DecimalSpelling} {code : Fin infinityCode} (hnearest : IsNearest s.size code)
    (hsafe : ∀ n : ℤ, (finite s.sign.isMinus code).toRat? = some (n : ℚ) → Number.maxSafeInteger < n.natAbs)
    {number : Number} (h : s.Names number) :
    number = .real (finite s.sign.isMinus code) ∨ s.IsPlain ∧ ∃ n : ℤ, s.value = n ∧ n ≠ 0 ∧ number = .integer n := by
  have hcode : ofCode s.sign.isMinus code = finite s.sign.isMinus code := dif_pos code.isLt
  have hlarge : ∀ n : ℤ, s.value = n → Number.maxSafeInteger < n.natAbs := by
    intro n hn
    by_contra hle
    have hread := DecimalSpelling.toRat?_ofCode hnearest hn (not_lt.1 hle)
    rw [hcode] at hread
    exact hle (hsafe n hread)
  have hne : s.value ≠ 0 := fun hzero => absurd (hlarge 0 (hzero.trans Int.cast_zero.symm)) (Nat.not_lt_zero _)
  have hrounds := DecimalSpelling.rounds_ofCode hnearest hne
  rw [hcode] at hrounds
  cases h with
  | @exact n h =>
    rcases h.isExact with hle | ⟨hplain, -⟩
    · exact absurd hle (not_le.2 (hlarge n h.value_eq))
    · refine .inr ⟨hplain, n, h.value_eq, ?_, rfl⟩
      rintro rfl
      exact hne (h.value_eq.trans Int.cast_zero)
  | whole _ hrounds' hwhole hbound =>
    rw [← hrounds.unique hrounds'] at hwhole
    exact absurd hbound (not_le.2 (hsafe _ hwhole))
  | real _ hrounds' => exact .inl (congrArg Number.real (hrounds'.unique hrounds))

/-- The text of a double that is no integer below 2 ^ 53 is read as the double, or as an integer
with the same text. -/
theorem fieldName_ofScalar_fieldText {d : Double} (hnan : d ≠ .nan)
    (hsafe : ∀ n : ℤ, d.toRat? = some (n : ℚ) → Number.maxSafeInteger < n.natAbs) :
    (Node.ofScalar d.fieldText).fieldName = String.ofList d.fieldText := by
  cases d with
  | nan => exact absurd rfl hnan
  | infinite negative => cases negative <;> rfl
  | finite negative code =>
    obtain ⟨s, htext, rfl, hsize, hplain⟩ := (shortest .up code).exists_spelling negative
    have hnearest : IsNearest s.size code := hsize ▸ isNearest_shortest .up code.isLt
    rw [← fieldText_finite] at htext
    rw [← htext, s.ofScalar_text]
    rcases real_or_plain_of_names hnearest hsafe s.names_toNumber with h | ⟨hint, n, hvalue, hne, h⟩
    · rw [h, htext]
      rfl
    · obtain ⟨m, hdigits, hm⟩ := hplain hint
      have hn : n = if s.sign.isMinus then -(m : ℤ) else m := by
        rw [DecimalSpelling.value, hsize, hm] at hvalue
        cases hsign : s.sign.isMinus <;> rw [hsign] at hvalue <;> exact_mod_cast hvalue.symm
      have hm0 : m ≠ 0 := by
        rintro rfl
        rw [Nat.cast_zero, neg_zero, ite_self] at hn
        exact hne hn
      rw [h, htext, fieldText_finite, hdigits, Node.fieldName, hn, Text.ofInt_eq hm0]

end Double

end FilterQuery
