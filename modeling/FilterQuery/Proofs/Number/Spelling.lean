import FilterQuery.Number.Literal
import FilterQuery.Proofs.Digit
import Mathlib.Data.List.TakeWhile
/-!
# Spellings of numbers

A decimal is an optional sign, digits on at least one side of an optional point, and an
optional exponent; a prefixed number is `0`, the mark of a base and digits of that base. A
spelling carries the proof of its shape, has one text, and says what it is worth apart from
the readers. The readers take the text of every spelling apart into that spelling, and they
take nothing else.
-/

namespace FilterQuery

/-! ## Digits -/

/-- A run of decimal ASCII digits. -/
structure Digits where
  chars : Text
  isDigit : ∀ c ∈ chars, c.isDigit = true

namespace Digits

/-- The number that the digits name in base ten. -/
def value (digits : Digits) : Nat := Nat.ofDigitChars 10 digits.chars 0

theorem natValue?_chars (digits : Digits) : Text.natValue? 10 digits.chars = some digits.value :=
  Text.natValue?_of_isDigit digits.isDigit

/-- The digits at the head of a text. -/
def ofHead (text : Text) : Digits := ⟨text.takeWhile Char.isDigit, fun _ hc => List.mem_takeWhile_imp hc⟩

theorem not_sign (digits : Digits) {c : Char} (h : c ∈ digits.chars) : c ≠ '+' ∧ c ≠ '-' := by
  have hdigit := digits.isDigit c h
  constructor <;> (rintro rfl; cases hdigit)

end Digits

/-! ## Signs -/

/-- The sign in front of digits. -/
inductive Sign where
  | absent
  | plus
  | minus

namespace Sign

/-- A sign as it is written. -/
def text : Sign → Text
  | absent => []
  | plus => ['+']
  | minus => ['-']

/-- The sign is a minus. -/
def isMinus : Sign → Bool
  | minus => true
  | _ => false

theorem takeSign_append (sign : Sign) {text : Text} (h : ∀ c ∈ text.head?, c ≠ '+' ∧ c ≠ '-') :
    DecimalLiteral.takeSign (sign.text ++ text) = (sign.isMinus, text) := by
  cases sign with
  | absent =>
    simp only [Sign.text, List.nil_append]
    unfold DecimalLiteral.takeSign
    split
    · exact absurd rfl (h '-' rfl).2
    · exact absurd rfl (h '+' rfl).1
    · rfl
  | plus => rfl
  | minus => rfl

theorem exists_takeSign (text : Text) :
    ∃ (sign : Sign) (rest : Text), text = sign.text ++ rest ∧ DecimalLiteral.takeSign text = (sign.isMinus, rest) := by
  unfold DecimalLiteral.takeSign
  split
  · next rest => exact ⟨minus, rest, rfl, rfl⟩
  · next rest => exact ⟨plus, rest, rfl, rfl⟩
  · exact ⟨absent, text, rfl, rfl⟩

end Sign

/-! ## Decimals -/

/-- The exponent part of a decimal. -/
structure ExponentPart where
  mark : Char
  sign : Sign
  digits : Digits
  isMark : mark = 'e' ∨ mark = 'E'
  ne_nil : digits.chars ≠ []

namespace ExponentPart

/-- An exponent part as it is written. -/
def text (part : ExponentPart) : Text := part.mark :: (part.sign.text ++ part.digits.chars)

/-- The exponent that the part names. -/
def value (part : ExponentPart) : ℤ := if part.sign.isMinus then -(part.digits.value : ℤ) else part.digits.value

end ExponentPart

/-- A decimal as it is spelled. -/
structure DecimalSpelling where
  sign : Sign
  whole : Digits
  /-- The digits behind the point, if there is a point. -/
  fraction : Option Digits
  exponent : Option ExponentPart
  hasDigit : whole.chars ≠ [] ∨ ∃ digits ∈ fraction, digits.chars ≠ []

namespace DecimalSpelling

/-- The digits of a spelling behind the point. -/
def places (s : DecimalSpelling) : Text := (s.fraction.map Digits.chars).getD []

/-- A fraction as it is written. -/
def fractionText : Option Digits → Text
  | none => []
  | some digits => '.' :: digits.chars

/-- An optional exponent part as it is written. -/
def exponentText (part : Option ExponentPart) : Text := (part.map ExponentPart.text).getD []

/-- The exponent that an optional part names. -/
def exponentValue (part : Option ExponentPart) : ℤ := (part.map ExponentPart.value).getD 0

/-- The text of a spelling. -/
def text (s : DecimalSpelling) : Text :=
  s.sign.text ++ (s.whole.chars ++ (fractionText s.fraction ++ exponentText s.exponent))

/-- The spelling is a sign and digits only. -/
def IsPlain (s : DecimalSpelling) : Prop := s.fraction = none ∧ s.exponent = none

/-- What a spelling is worth without its sign. -/
def size (s : DecimalSpelling) : ℚ :=
  (Nat.ofDigitChars 10 (s.whole.chars ++ s.places) 0 : ℕ) *
    10 ^ (exponentValue s.exponent - s.places.length)

/-- The rational that a spelling names. -/
def value (s : DecimalSpelling) : ℚ := if s.sign.isMinus then -s.size else s.size

/-- A spelling, taken apart as the reader does it. -/
def literal (s : DecimalSpelling) : DecimalLiteral where
  negative := s.sign.isMinus
  whole := s.whole.chars
  fraction := s.places
  exponent := exponentValue s.exponent
  isPlain := s.fraction.isNone && s.exponent.isNone

/-! ## The reader and the spellings -/

theorem exponent?_exponentText (part : Option ExponentPart) :
    DecimalLiteral.exponent? (exponentText part) = some (exponentValue part) := by
  cases part with
  | none => rfl
  | some part =>
    have hhead : ∀ c ∈ part.digits.chars.head?, c ≠ '+' ∧ c ≠ '-' := fun c hc =>
      part.digits.not_sign (List.mem_of_mem_head? hc)
    simp only [exponentText, Option.map_some, Option.getD_some, ExponentPart.text, DecimalLiteral.exponent?,
      if_pos part.isMark, Sign.takeSign_append part.sign hhead, if_neg part.ne_nil, part.digits.natValue?_chars]
    rfl

theorem exists_exponentText {text : Text} {exponent : ℤ} (h : DecimalLiteral.exponent? text = some exponent) :
    ∃ part, exponentText part = text ∧ exponentValue part = exponent := by
  unfold DecimalLiteral.exponent? at h
  split at h
  · exact ⟨none, rfl, Option.some.inj h⟩
  · next mark text =>
    split at h
    · next hmark =>
      obtain ⟨sign, digits, rfl, htake⟩ := Sign.exists_takeSign text
      rw [htake] at h
      simp only at h
      split at h
      · cases h
      · next hne =>
        obtain ⟨value, hvalue, rfl⟩ := Option.map_eq_some_iff.1 h
        obtain ⟨n, hn, hcast⟩ := Option.bind_eq_some_iff.1 hvalue
        obtain rfl := Option.some.inj hcast
        let part : ExponentPart := ⟨mark, sign, ⟨digits, Text.isDigit_of_natValue? hn⟩, hmark, hne⟩
        have hvalue : part.digits.value = n := Option.some.inj (part.digits.natValue?_chars.symm.trans hn)
        refine ⟨some part, rfl, ?_⟩
        rw [exponentValue, Option.map_some, Option.getD_some, ExponentPart.value, hvalue]
    · cases h

theorem head?_exponentText (part : Option ExponentPart) :
    ∀ c ∈ (exponentText part).head?, c.isDigit = false ∧ c ≠ '.' := by
  cases part with
  | none => nofun
  | some part =>
    rintro c ⟨⟩
    rcases part.isMark with hmark | hmark <;> rw [hmark] <;> decide

theorem not_sign (s : DecimalSpelling) :
    ∀ c ∈ (s.whole.chars ++ (fractionText s.fraction ++ exponentText s.exponent)).head?, c ≠ '+' ∧ c ≠ '-' := by
  intro c hc
  rcases hwhole : s.whole.chars with _ | ⟨first, rest⟩
  · obtain ⟨digits, hdigits, -⟩ := s.hasDigit.resolve_left (not_not_intro hwhole)
    rw [hwhole, List.nil_append, Option.mem_def.1 hdigits] at hc
    obtain rfl := Option.some.inj hc
    decide
  · rw [hwhole] at hc
    obtain rfl := Option.some.inj hc
    exact s.whole.not_sign (hwhole ▸ List.mem_cons_self)

/-- The reader takes the text of a spelling apart into the spelling. -/
theorem read?_text (s : DecimalSpelling) : DecimalLiteral.read? s.text = some s.literal := by
  have hexponent := head?_exponentText s.exponent
  have htail : ∀ c ∈ (fractionText s.fraction ++ exponentText s.exponent).head?, c.isDigit = false := by
    cases s.fraction with
    | none => exact fun c hc => (hexponent c hc).1
    | some digits =>
      rintro c ⟨⟩
      decide
  simp only [DecimalLiteral.read?, text, Sign.takeSign_append s.sign s.not_sign,
    Text.span_append s.whole.isDigit htail]
  obtain ⟨sign, whole, fraction, exponent, hasDigit⟩ := s
  cases fraction with
  | none =>
    have hne : whole.chars ≠ [] := hasDigit.resolve_right nofun
    simp only [fractionText, List.nil_append]
    split
    · next rest hpoint => exact absurd rfl (hexponent '.' (by rw [hpoint]; rfl)).2
    · rw [if_neg hne, exponent?_exponentText, Option.map_some]
      cases exponent <;> rfl
  | some digits =>
    have hsome : ¬ (whole.chars = [] ∧ digits.chars = []) := by
      rintro ⟨hwhole, hfraction⟩
      obtain ⟨_, ⟨⟩, hne⟩ := hasDigit.resolve_left (not_not_intro hwhole)
      exact hne hfraction
    simp only [fractionText, List.cons_append,
      Text.span_append digits.isDigit fun c hc => (hexponent c hc).1, exponent?_exponentText]
    rw [if_neg hsome]
    rfl

/-- Everything that the reader takes apart is the text of a spelling. -/
theorem exists_text {text : Text} {literal : DecimalLiteral} (h : DecimalLiteral.read? text = some literal) :
    ∃ s : DecimalSpelling, s.text = text ∧ s.literal = literal := by
  obtain ⟨sign, body, rfl, htake⟩ := Sign.exists_takeSign text
  simp only [DecimalLiteral.read?, htake, List.span_eq_takeWhile_dropWhile] at h
  split at h
  · next rest hpoint =>
    split at h
    · cases h
    · next hsome =>
      obtain ⟨exponent, hexponent, rfl⟩ := Option.map_eq_some_iff.1 h
      obtain ⟨part, hpart, rfl⟩ := exists_exponentText hexponent
      have hdigit : (Digits.ofHead body).chars ≠ [] ∨
          ∃ digits ∈ some (Digits.ofHead rest), digits.chars ≠ [] := by
        by_contra hnone
        obtain ⟨hwhole, hfraction⟩ := not_or.1 hnone
        exact hsome ⟨not_not.1 hwhole, not_not.1 fun hne => hfraction ⟨_, rfl, hne⟩⟩
      refine ⟨⟨sign, .ofHead body, some (.ofHead rest), part, hdigit⟩, ?_, rfl⟩
      simp only [text, fractionText, List.cons_append, hpart, Digits.ofHead, List.takeWhile_append_dropWhile, ← hpoint]
  · split at h
    · cases h
    · next hne =>
      obtain ⟨exponent, hexponent, rfl⟩ := Option.map_eq_some_iff.1 h
      obtain ⟨part, hpart, rfl⟩ := exists_exponentText hexponent
      refine ⟨⟨sign, .ofHead body, none, part, .inl hne⟩, ?_, ?_⟩
      · simp only [text, fractionText, List.nil_append, hpart, Digits.ofHead, List.takeWhile_append_dropWhile]
      · rw [← hpart]
        cases part <;> rfl

end DecimalSpelling

/-! ## Prefixed numbers -/

/-- A number of base 16, 8 or 2 as it is spelled. -/
structure PrefixedSpelling where
  mark : Char
  base : Nat
  digits : Text
  isMark : (mark, base) ∈ [('x', 16), ('X', 16), ('o', 8), ('O', 8), ('b', 2), ('B', 2)]
  isDigit : ∀ c ∈ digits, c.toLower ∈ digitsOfBase base
  ne_nil : digits ≠ []

namespace PrefixedSpelling

/-- The text of a spelling. -/
def text (p : PrefixedSpelling) : Text := '0' :: p.mark :: p.digits

/-- The number that a spelling names. -/
def value (p : PrefixedSpelling) : Nat :=
  Nat.ofDigits p.base (p.digits.map fun c => (digitsOfBase p.base).idxOf c.toLower).reverse

theorem mem_bases_of_isMark {mark : Char} {base : Nat}
    (h : (mark, base) ∈ [('x', 16), ('X', 16), ('o', 8), ('O', 8), ('b', 2), ('B', 2)]) : base ∈ [16, 8, 2] :=
  (show ∀ pair ∈ [('x', 16), ('X', 16), ('o', 8), ('O', 8), ('b', 2), ('B', 2)], pair.2 ∈ [16, 8, 2] by decide) _ h

theorem natValue?_digits (p : PrefixedSpelling) : Text.natValue? p.base p.digits = some p.value := by
  refine Text.natValue?_eq_some_iff.2 ⟨p.digits.map fun c => (digitsOfBase p.base).idxOf c.toLower, ?_, rfl⟩
  rw [List.map_map]
  apply List.map_congr_left
  intro c hc
  rw [digitValue?_eq (mem_bases_of_isMark p.isMark), if_pos (p.isDigit c hc)]
  rfl

theorem base?_text (p : PrefixedSpelling) : Number.base? p.text = some (p.base, p.digits) := by
  obtain ⟨mark, base, digits, hmark, -, -⟩ := p
  simp only [List.mem_cons, Prod.mk.injEq, List.not_mem_nil, or_false] at hmark
  rcases hmark with ⟨rfl, rfl⟩ | ⟨rfl, rfl⟩ | ⟨rfl, rfl⟩ | ⟨rfl, rfl⟩ | ⟨rfl, rfl⟩ | ⟨rfl, rfl⟩ <;> rfl

theorem exists_mark_of_base? {text digits : Text} {base : Nat} (h : Number.base? text = some (base, digits)) :
    ∃ mark, text = '0' :: mark :: digits ∧
      (mark, base) ∈ [('x', 16), ('X', 16), ('o', 8), ('O', 8), ('b', 2), ('B', 2)] := by
  unfold Number.base? at h
  split at h
  · next mark rest =>
    split_ifs at h with hx ho hb
    all_goals
      obtain ⟨rfl, rfl⟩ := Prod.mk.inj (Option.some.inj h)
      refine ⟨mark, rfl, ?_⟩
    · rcases hx with rfl | rfl <;> decide
    · rcases ho with rfl | rfl <;> decide
    · rcases hb with rfl | rfl <;> decide
  · cases h

/-- A prefixed text is read for its value, if that fits into 64 bits. -/
theorem readPrefixed?_text (p : PrefixedSpelling) : Number.readPrefixed? p.text = Number.ofInt? p.value := by
  simp only [Number.readPrefixed?, p.base?_text, Option.bind_eq_bind, Option.bind_some, if_neg p.ne_nil,
    p.natValue?_digits]

/-- Everything that is read behind a prefix is the text of a spelling. -/
theorem exists_text {text : Text} {number : Number} (h : Number.readPrefixed? text = some number) :
    ∃ p : PrefixedSpelling, p.text = text := by
  obtain ⟨⟨base, digits⟩, hbase, hread⟩ := Option.bind_eq_some_iff.1 h
  obtain ⟨mark, rfl, hmark⟩ := exists_mark_of_base? hbase
  simp only at hread
  split at hread
  · cases hread
  · next hne =>
    obtain ⟨n, hn, -⟩ := Option.bind_eq_some_iff.1 hread
    have hdigit : ∀ c ∈ digits, c.toLower ∈ digitsOfBase base := by
      intro c hc
      have hsome := Text.isSome_digitValue?_of_natValue? hn c hc
      rw [digitValue?_eq (mem_bases_of_isMark hmark)] at hsome
      by_contra hno
      rw [if_neg hno] at hsome
      cases hsome
    exact ⟨⟨mark, base, digits, hmark, hdigit, hne⟩, rfl⟩

end PrefixedSpelling

end FilterQuery
