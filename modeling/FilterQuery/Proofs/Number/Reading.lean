import FilterQuery.Proofs.Number.Nearest
import FilterQuery.Proofs.Number.Spelling
/-!
# The number that a text names

A text that names a number is `Infinity` with an optional sign, a prefixed number of 64 bits
or a decimal. A decimal is read for its exact value where that is an integer below 2 ^ 53, in
every spelling, or an integer of 64 bits spelled with a sign and digits only. Any other
decimal is read for the nearest double, which becomes an integer if it is a whole number
below 2 ^ 53. So no number that is read as a double could have been read as such an integer.
-/

namespace FilterQuery

/-! ## Doubles -/

namespace Double

/-- The double nearest to a rational, with its sign. Infinity stands for all magnitudes that are
nearer to 2 ^ 1024 than to the greatest double, or in the middle. -/
inductive Rounds (q : ℚ) : Double → Prop
  | finite (code : Fin infinityCode) (h : IsNearest |q| code) : Rounds q (.finite (decide (q < 0)) code)
  | overflow (h : IsNearest |q| infinityCode) : Rounds q (.infinite (decide (q < 0)))

theorem rounds_ofCode {q : ℚ} {code : Nat} (h : IsNearest |q| code) : Rounds q (ofCode (decide (q < 0)) code) := by
  unfold ofCode
  split
  · next hcode => exact .finite ⟨code, hcode⟩ h
  · next hcode =>
    obtain rfl := Nat.le_antisymm h.le_infinity (not_lt.1 hcode)
    exact .overflow h

theorem Rounds.unique {q : ℚ} {d d' : Double} (h : Rounds q d) (h' : Rounds q d') : d = d' := by
  cases h with
  | finite code h =>
    cases h' with
    | finite code' h' => rw [Fin.ext (h.unique h')]
    | overflow h' => exact absurd (h.unique h') code.isLt.ne
  | overflow h =>
    cases h' with
    | finite code' h' => exact absurd (h'.unique h) code'.isLt.ne
    | overflow h' => rfl

theorem Rounds.ne_nan {q : ℚ} {d : Double} (h : Rounds q d) : d ≠ .nan := by
  cases h <;> nofun

/-- A sign and the nearest code of a magnitude that is a natural number below 2 ^ 53 are that number. -/
theorem toRat?_ofCode {q : ℚ} {code n : Nat} (negative : Bool) (h : IsNearest q code) (hq : q = n)
    (hn : n < 2 ^ 53) : (ofCode negative code).toRat? = some (if negative then -q else q) := by
  obtain ⟨exact, hexact, hmagnitude⟩ := exists_magnitude_eq_natCast hn
  have hcode := h.magnitude_eq hexact.le (hmagnitude.trans hq.symm)
  have hlt : code < infinityCode := by
    rw [← strictMono_magnitude.lt_iff_lt, hcode, hq, ← hmagnitude]
    exact strictMono_magnitude hexact
  rw [ofCode, dif_pos hlt, toRat?, hcode]

end Double

namespace Number

theorem ofInt?_eq_some_iff {n : ℤ} {number : Number} :
    ofInt? n = some number ↔ (minInteger ≤ n ∧ n ≤ maxInteger) ∧ number = .integer n := by
  rw [ofInt?, Option.ite_none_right_eq_some, Option.some_inj, eq_comm (a := number)]

theorem ofDouble_eq_integer {d : Double} {n : ℤ} (h : d.toRat? = some (n : ℚ)) (hn : n.natAbs ≤ maxSafeInteger) :
    ofDouble d = .integer n := by
  rw [ofDouble, Double.toInt?_eq_some_iff.2 h]
  exact if_pos hn

theorem ofDouble_eq_real {d : Double} (h : ∀ n : ℤ, d.toRat? = some (n : ℚ) → maxSafeInteger < n.natAbs) :
    ofDouble d = .real d := by
  unfold ofDouble
  split
  · next n hn => exact if_neg (not_le.2 (h n (Double.toInt?_eq_some_iff.1 hn)))
  · rfl

end Number

/-! ## Decimals -/

namespace DecimalSpelling

/-- The integer that a decimal names without rounding: one that every double holds, in any
spelling, or one of 64 bits, spelled with a sign and digits only. -/
structure NamesExactly (s : DecimalSpelling) (n : ℤ) : Prop where
  value_eq : s.value = n
  isExact : n.natAbs ≤ Number.maxSafeInteger ∨ (s.IsPlain ∧ Number.minInteger ≤ n ∧ n ≤ Number.maxInteger)

/-- The number that a decimal names. -/
inductive Names (s : DecimalSpelling) : Number → Prop
  | exact {n : ℤ} (h : s.NamesExactly n) : Names s (.integer n)
  | whole {d : Double} {n : ℤ} (hexact : ∀ n, ¬ s.NamesExactly n) (h : Double.Rounds s.value d)
      (hwhole : d.toRat? = some (n : ℚ)) (hsafe : n.natAbs ≤ Number.maxSafeInteger) : Names s (.integer n)
  | real {d : Double} (hexact : ∀ n, ¬ s.NamesExactly n) (h : Double.Rounds s.value d)
      (hsafe : ∀ n : ℤ, d.toRat? = some (n : ℚ) → Number.maxSafeInteger < n.natAbs) : Names s (.real d)

variable (s : DecimalSpelling)

theorem isDigit_digits : ∀ c ∈ s.whole.chars ++ s.places, c.isDigit = true := by
  intro c hc
  rcases List.mem_append.1 hc with hc | hc
  · exact s.whole.isDigit c hc
  · unfold places at hc
    cases hfraction : s.fraction with
    | none =>
      rw [hfraction] at hc
      cases hc
    | some digits =>
      rw [hfraction] at hc
      exact digits.isDigit c hc

theorem significand_literal :
    s.literal.magnitude.significand = Nat.ofDigitChars 10 (s.whole.chars ++ s.places) 0 := by
  simp only [DecimalLiteral.magnitude, literal, Text.natValue?_of_isDigit s.isDigit_digits, Option.getD_some]

theorem value_magnitude : s.literal.magnitude.value = s.size := by
  rw [Decimal.value, significand_literal]
  rfl

theorem size_nonneg : 0 ≤ s.size := mul_nonneg (Nat.cast_nonneg _) (zpow_nonneg (by norm_num) _)

theorem abs_value : |s.value| = s.size := by
  unfold value
  split
  · rw [abs_neg, abs_of_nonneg s.size_nonneg]
  · rw [abs_of_nonneg s.size_nonneg]

theorem value_lt_zero_iff (h : s.value ≠ 0) : s.value < 0 ↔ s.sign.isMinus = true := by
  have hsize : 0 < s.size := by
    rw [← abs_value]
    exact abs_pos.2 h
  unfold value
  cases s.sign.isMinus <;> simp [hsize, hsize.le]

section Code
variable {s} {code : Nat} (h : Double.IsNearest s.size code)
include h

theorem rounds_ofCode (hne : s.value ≠ 0) : Double.Rounds s.value (.ofCode s.sign.isMinus code) := by
  have hsign : s.sign.isMinus = decide (s.value < 0) := by
    rw [Bool.eq_iff_iff, decide_eq_true_iff, s.value_lt_zero_iff hne]
  rw [← abs_value] at h
  rw [hsign]
  exact Double.rounds_ofCode h

/-- The nearest double to a decimal that is an integer below 2 ^ 53 is that integer. -/
theorem toRat?_ofCode {n : ℤ} (hvalue : s.value = n) (hn : n.natAbs ≤ Number.maxSafeInteger) :
    (Double.ofCode s.sign.isMinus code).toRat? = some (n : ℚ) := by
  have hsize : s.size = n.natAbs := by rw [← abs_value, hvalue, Nat.cast_natAbs, Int.cast_abs]
  have hbound : n.natAbs < 2 ^ 53 := hn.trans_lt (by decide)
  rw [Double.toRat?_ofCode _ h hsize hbound, ← hvalue]
  rfl

end Code

theorem exists_code : ∃ code, Double.IsNearest s.size code ∧
    Double.ofDecimal s.literal.negative s.literal.magnitude = .ofCode s.sign.isMinus code := by
  obtain ⟨code, hnearest, heq⟩ := Double.exists_ofDecimal s.literal.negative s.literal.magnitude
  rw [value_magnitude] at hnearest
  exact ⟨code, hnearest, heq⟩

/-- The double of a decimal other than zero is the nearest one. -/
theorem rounds_value (h : s.value ≠ 0) : Double.Rounds s.value (.ofDecimal s.literal.negative s.literal.magnitude) := by
  obtain ⟨code, hnearest, heq⟩ := s.exists_code
  rw [heq]
  exact rounds_ofCode hnearest h

/-- The double of a decimal that is an integer below 2 ^ 53 is that integer. -/
theorem toRat?_of_safe {n : ℤ} (h : s.value = n) (hn : n.natAbs ≤ Number.maxSafeInteger) :
    (Double.ofDecimal s.literal.negative s.literal.magnitude).toRat? = some (n : ℚ) := by
  obtain ⟨code, hnearest, heq⟩ := s.exists_code
  rw [heq, toRat?_ofCode hnearest h hn]

theorem isPlain_literal : s.literal.isPlain = true ↔ s.IsPlain := by
  simp [literal, IsPlain]

/-- A sign and digits name an integer, which is read if it has 64 bits. -/
theorem integer?_of_isPlain (h : s.IsPlain) : ∃ n : ℤ, s.value = n ∧ s.literal.integer? = Number.ofInt? n := by
  have hsize : s.size = s.literal.magnitude.significand := by
    rw [size, significand_literal, places, h.1, h.2]
    simp [exponentValue]
  refine ⟨if s.sign.isMinus then -(s.literal.magnitude.significand : ℤ) else s.literal.magnitude.significand, ?_, ?_⟩
  · rw [value, hsize]
    cases s.sign.isMinus <;> simp
  · rw [DecimalLiteral.integer?, if_pos (s.isPlain_literal.2 h)]
    rfl

theorem integer?_of_not_isPlain (h : ¬ s.IsPlain) : s.literal.integer? = none := by
  rw [DecimalLiteral.integer?, if_neg (mt s.isPlain_literal.1 h)]

/-- A decimal is read for the number that it names. -/
theorem names_toNumber : s.Names s.literal.toNumber := by
  cases hinteger : s.literal.integer? with
  | some number =>
    have hplain : s.IsPlain := by
      by_contra hno
      rw [s.integer?_of_not_isPlain hno] at hinteger
      cases hinteger
    obtain ⟨n, hvalue, hread⟩ := s.integer?_of_isPlain hplain
    obtain ⟨hfits, rfl⟩ := Number.ofInt?_eq_some_iff.1 (hread.symm.trans hinteger)
    rw [DecimalLiteral.toNumber, hinteger, Option.getD_some]
    exact .exact ⟨hvalue, .inr ⟨hplain, hfits⟩⟩
  | none =>
    -- not a plain integer of 64 bits, so that the nearest double decides
    have hplain : ∀ n : ℤ, s.value = n → ¬ (s.IsPlain ∧ Number.minInteger ≤ n ∧ n ≤ Number.maxInteger) := by
      rintro n hvalue ⟨hplain, hfits⟩
      obtain ⟨n', hvalue', hread⟩ := s.integer?_of_isPlain hplain
      obtain rfl : n = n' := Int.cast_injective (hvalue.symm.trans hvalue')
      rw [hinteger, Number.ofInt?, if_pos hfits] at hread
      cases hread
    rw [DecimalLiteral.toNumber, hinteger, Option.getD_none]
    by_cases hsafe : ∃ n : ℤ, s.value = n ∧ n.natAbs ≤ Number.maxSafeInteger
    · obtain ⟨n, hvalue, hn⟩ := hsafe
      rw [Number.ofDouble_eq_integer (s.toRat?_of_safe hvalue hn) hn]
      exact .exact ⟨hvalue, .inl hn⟩
    have hexact : ∀ n, ¬ s.NamesExactly n := by
      rintro n ⟨hvalue, hn | hn⟩
      · exact hsafe ⟨n, hvalue, hn⟩
      · exact hplain n hvalue hn
    have hrounds := s.rounds_value fun hzero => hsafe ⟨0, hzero.trans Int.cast_zero.symm, Nat.zero_le _⟩
    generalize Double.ofDecimal s.literal.negative s.literal.magnitude = d at hrounds ⊢
    by_cases hwhole : ∃ n : ℤ, d.toRat? = some (n : ℚ) ∧ n.natAbs ≤ Number.maxSafeInteger
    · obtain ⟨n, hn, hbound⟩ := hwhole
      rw [Number.ofDouble_eq_integer hn hbound]
      exact .whole hexact hrounds hn hbound
    · have hreal : ∀ n : ℤ, d.toRat? = some (n : ℚ) → Number.maxSafeInteger < n.natAbs := fun n hn =>
        not_le.1 fun hbound => hwhole ⟨n, hn, hbound⟩
      rw [Number.ofDouble_eq_real hreal]
      exact .real hexact hrounds hreal

variable {s}

/-- The three ways to name a number exclude one another, and each names one number. -/
theorem Names.unique {number number' : Number} (h : s.Names number) (h' : s.Names number') : number = number' := by
  cases h with
  | exact h =>
    cases h' with
    | exact h' => rw [Int.cast_injective (h.value_eq.symm.trans h'.value_eq)]
    | whole hexact => exact absurd h (hexact _)
    | real hexact => exact absurd h (hexact _)
  | whole hexact hrounds hwhole hsafe =>
    cases h' with
    | exact h' => exact absurd h' (hexact _)
    | whole _ hrounds' hwhole' =>
      rw [hrounds.unique hrounds', hwhole'] at hwhole
      rw [Int.cast_injective (Option.some.inj hwhole)]
    | real _ hrounds' hreal =>
      rw [hrounds.unique hrounds'] at hwhole
      exact absurd hsafe (not_le.2 (hreal _ hwhole))
  | real hexact hrounds hreal =>
    cases h' with
    | exact h' => exact absurd h' (hexact _)
    | whole _ hrounds' hwhole hsafe =>
      rw [← hrounds.unique hrounds'] at hwhole
      exact absurd hsafe (not_le.2 (hreal _ hwhole))
    | real _ hrounds' => rw [hrounds.unique hrounds']

end DecimalSpelling

/-! ## All texts -/

namespace Number

/-- A text names a number, blanks around it apart. -/
inductive IsNumeral : Text → Prop
  | infinity (sign : Sign) : IsNumeral (sign.text ++ "Infinity".toList)
  | prefixed (p : PrefixedSpelling) (h : (p.value : ℤ) ≤ maxInteger) : IsNumeral p.text
  | decimal (s : DecimalSpelling) : IsNumeral s.text

/-- The number that a text names, blanks around it apart. -/
inductive NamedBy : Text → Number → Prop
  | infinity (sign : Sign) : NamedBy (sign.text ++ "Infinity".toList) (.real (.infinite sign.isMinus))
  | prefixed (p : PrefixedSpelling) (h : (p.value : ℤ) ≤ maxInteger) : NamedBy p.text (.integer p.value)
  | decimal (s : DecimalSpelling) {number : Number} (h : s.Names number) : NamedBy s.text number

theorem readInfinite?_text (sign : Sign) :
    readInfinite? (sign.text ++ "Infinity".toList) = some (.real (.infinite sign.isMinus)) := by
  cases sign <;> rfl

theorem exists_sign_of_readInfinite? {text : Text} {number : Number} (h : readInfinite? text = some number) :
    ∃ sign : Sign, text = sign.text ++ "Infinity".toList := by
  unfold readInfinite? at h
  split_ifs at h with hplus hminus
  · rcases hplus with rfl | rfl
    · exact ⟨.absent, rfl⟩
    · exact ⟨.plus, rfl⟩
  · exact ⟨.minus, hminus⟩

theorem readDecimal?_infinity (sign : Sign) : DecimalLiteral.read? (sign.text ++ "Infinity".toList) = none := by
  cases sign <;> rfl

end Number

theorem PrefixedSpelling.readInfinite?_text (p : PrefixedSpelling) : Number.readInfinite? p.text = none := by
  refine Option.eq_none_iff_forall_ne_some.2 fun number h => ?_
  obtain ⟨sign, hsign⟩ := Number.exists_sign_of_readInfinite? h
  cases sign <;> cases congrArg List.head? hsign

theorem PrefixedSpelling.readDecimal?_text (p : PrefixedSpelling) : DecimalLiteral.read? p.text = none := by
  obtain ⟨mark, base, digits, hmark, -, -⟩ := p
  simp only [List.mem_cons, Prod.mk.injEq, List.not_mem_nil, or_false] at hmark
  rcases hmark with ⟨rfl, rfl⟩ | ⟨rfl, rfl⟩ | ⟨rfl, rfl⟩ | ⟨rfl, rfl⟩ | ⟨rfl, rfl⟩ | ⟨rfl, rfl⟩ <;> rfl

theorem DecimalSpelling.readInfinite?_text (s : DecimalSpelling) : Number.readInfinite? s.text = none := by
  refine Option.eq_none_iff_forall_ne_some.2 fun number h => ?_
  obtain ⟨sign, hsign⟩ := Number.exists_sign_of_readInfinite? h
  have hread := s.read?_text
  rw [hsign, Number.readDecimal?_infinity] at hread
  cases hread

theorem DecimalSpelling.readPrefixed?_text (s : DecimalSpelling) : Number.readPrefixed? s.text = none := by
  refine Option.eq_none_iff_forall_ne_some.2 fun number h => ?_
  obtain ⟨p, hp⟩ := PrefixedSpelling.exists_text h
  have hread := s.read?_text
  rw [← hp, p.readDecimal?_text] at hread
  cases hread

namespace Number

theorem read?_eq_some_iff_or {text : Text} {number : Number} : read? text = some number ↔
    readInfinite? text.trim = some number ∨ readInfinite? text.trim = none ∧
      (readPrefixed? text.trim = some number ∨ readPrefixed? text.trim = none ∧
        ∃ literal, DecimalLiteral.read? text.trim = some literal ∧ literal.toNumber = number) := by
  simp only [read?, Option.orElse_eq_orElse, Option.orElse_eq_or, Option.or_eq_some_iff, Option.map_eq_some_iff]

/-- A text is read for the number that it names. -/
theorem read?_eq_some_iff {text : Text} {number : Number} :
    read? text = some number ↔ NamedBy text.trim number := by
  rw [read?_eq_some_iff_or]
  generalize text.trim = text
  constructor
  · rintro (h | ⟨-, h | ⟨-, literal, h, rfl⟩⟩)
    · obtain ⟨sign, rfl⟩ := exists_sign_of_readInfinite? h
      obtain rfl := Option.some.inj ((readInfinite?_text sign).symm.trans h)
      exact .infinity sign
    · obtain ⟨p, rfl⟩ := PrefixedSpelling.exists_text h
      obtain ⟨⟨-, hfits⟩, rfl⟩ := ofInt?_eq_some_iff.1 (p.readPrefixed?_text.symm.trans h)
      exact .prefixed p hfits
    · obtain ⟨s, rfl, rfl⟩ := DecimalSpelling.exists_text h
      exact .decimal s s.names_toNumber
  · intro h
    cases h with
    | infinity sign => exact .inl (readInfinite?_text sign)
    | prefixed p hfits =>
      have hleast : minInteger ≤ p.value := (show minInteger ≤ 0 by decide).trans (Int.natCast_nonneg _)
      have hread := ofInt?_eq_some_iff.2 ⟨⟨hleast, hfits⟩, rfl⟩
      exact .inr ⟨p.readInfinite?_text, .inl (p.readPrefixed?_text.trans hread)⟩
    | decimal s h =>
      have hread := s.names_toNumber.unique h
      exact .inr ⟨s.readInfinite?_text, .inr ⟨s.readPrefixed?_text, s.literal, s.read?_text, hread⟩⟩

theorem isSome_read?_iff {text : Text} : (read? text).isSome = true ↔ IsNumeral text.trim := by
  simp only [Option.isSome_iff_exists, read?_eq_some_iff]
  generalize text.trim = text
  constructor
  · rintro ⟨number, h⟩
    cases h with
    | infinity sign => exact .infinity sign
    | prefixed p hfits => exact .prefixed p hfits
    | decimal s => exact .decimal s
  · intro h
    cases h with
    | infinity sign => exact ⟨_, .infinity sign⟩
    | prefixed p hfits => exact ⟨_, .prefixed p hfits⟩
    | decimal s => exact ⟨_, .decimal s s.names_toNumber⟩

theorem NamedBy.not_safe {text : Text} {d : Double} (h : NamedBy text (.real d)) :
    d ≠ .nan ∧ ∀ n : ℤ, d.toRat? = some (n : ℚ) → maxSafeInteger < n.natAbs := by
  cases h with
  | infinity sign => exact ⟨nofun, nofun⟩
  | decimal s h =>
    cases h with
    | real _ hrounds hreal => exact ⟨hrounds.ne_nan, hreal⟩

/-- An integer that is read has 64 bits. -/
theorem NamedBy.bounds {text : Text} {n : ℤ} (h : NamedBy text (.integer n)) : minInteger ≤ n ∧ n ≤ maxInteger := by
  have hsafe : n.natAbs ≤ maxSafeInteger → minInteger ≤ n ∧ n ≤ maxInteger := by
    unfold maxSafeInteger minInteger maxInteger
    omega
  cases h with
  | prefixed p hfits => exact ⟨(show minInteger ≤ 0 by decide).trans (Int.natCast_nonneg _), hfits⟩
  | decimal s h =>
    cases h with
    | exact h => exact h.isExact.elim hsafe And.right
    | whole _ _ _ hbound => exact hsafe hbound

/-- Which texts are read as numbers, for which number each is read, and that no double that is
read is NaN or an integer below 2 ^ 53. -/
theorem read?_spec (text : Text) :
    ((read? text).isSome = true ↔ IsNumeral text.trim) ∧
      (∀ number, read? text = some number ↔ NamedBy text.trim number) ∧
      ∀ d, read? text = some (.real d) →
        d ≠ .nan ∧ ∀ n : ℤ, d.toRat? = some (n : ℚ) → maxSafeInteger < n.natAbs :=
  ⟨isSome_read?_iff, fun _ => read?_eq_some_iff, fun _ h => (read?_eq_some_iff.1 h).not_safe⟩

-- one above 2 ^ 53 is kept where sign and digits spell it, and is rounded to even where a point does
example : read? "9007199254740993".toList = some (.integer 9007199254740993) := by decide +kernel
example : read? "9007199254740993.".toList = some (.real (.finite false ⟨1076 * 2 ^ 52, by decide⟩)) := by
  decide +kernel
example : read? "0.99999999999999999999".toList = some (.integer 1) := by decide +kernel

end Number

end FilterQuery
