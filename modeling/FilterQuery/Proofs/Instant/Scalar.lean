import FilterQuery.Proofs.Instant.Spelling
import FilterQuery.Proofs.Number.Reading
import FilterQuery.Proofs.Recognize
/-!
# Dates among the scalars

Dates are the last of the scalars that are tried, behind booleans and numbers. A text that is a
date is none of the others, because it has a dash behind digits: `Node.ofScalar_of_ofIso?`.
-/

namespace FilterQuery

namespace Text

theorem isBlank_of_isDigit {c : Char} (h : c.isDigit = true) : isBlank c = false :=
  forall_isDigit (P := (isBlank · = false)) (by decide) h

theorem trimEnd_cons {c : Char} (hc : isBlank c = false) (text : Text) : trimEnd (c :: text) = c :: trimEnd text := by
  rw [trimEnd, List.reverse_cons, List.dropWhile_append]
  split
  · next hempty =>
    rw [trimEnd, List.isEmpty_iff.1 hempty, List.dropWhile_cons_of_neg (by simp [hc])]
    rfl
  · rw [List.reverse_append]
    rfl

theorem trimEnd_append {front : Text} (h : ∀ c ∈ front, isBlank c = false) (text : Text) :
    trimEnd (front ++ text) = front ++ trimEnd text := by
  induction front with
  | nil => rfl
  | cons c front ih =>
    obtain ⟨hc, hfront⟩ := List.forall_mem_cons.1 h
    rw [List.cons_append, trimEnd_cons hc, ih hfront, List.cons_append]

theorem trim_append {front : Text} (hne : front ≠ []) (h : ∀ c ∈ front, isBlank c = false) (text : Text) :
    trim (front ++ text) = front ++ trimEnd text := by
  obtain ⟨c, front, rfl⟩ := List.exists_cons_of_ne_nil hne
  rw [trim, List.cons_append, List.dropWhile_cons_of_neg (by simp [h c List.mem_cons_self]), ← List.cons_append,
    trimEnd_append h]

end Text

/-! ## A dash behind digits -/

section Dash
variable {digits : Digits} (hne : digits.chars ≠ []) (rest : Text)
include hne

theorem isDigit_of_mem_head? : ∀ c ∈ (digits.chars ++ rest).head?, c.isDigit = true := by
  obtain ⟨c, chars, hchars⟩ := List.exists_cons_of_ne_nil hne
  intro d hd
  rw [hchars] at hd
  obtain rfl := Option.some.inj hd
  exact digits.isDigit c (hchars ▸ List.mem_cons_self)

theorem DecimalLiteral.read?_dash : read? (digits.chars ++ '-' :: rest) = none := by
  have hsign : takeSign (digits.chars ++ '-' :: rest) = (false, digits.chars ++ '-' :: rest) :=
    Sign.takeSign_append .absent fun c hc => by
      have hdigit := isDigit_of_mem_head? hne _ c hc
      constructor <;> (rintro rfl; cases hdigit)
  have hspan : (digits.chars ++ '-' :: rest).span Char.isDigit = (digits.chars, '-' :: rest) :=
    Text.span_append digits.isDigit fun c hc => by
      obtain rfl := Option.some.inj hc
      rfl
  simp only [read?, hsign, hspan, if_neg hne]
  rfl

theorem Number.readInfinite?_dash : readInfinite? (digits.chars ++ '-' :: rest) = none := by
  refine Option.eq_none_iff_forall_ne_some.2 fun number h => ?_
  obtain ⟨sign, hsign⟩ := exists_sign_of_readInfinite? h
  have hdigit := isDigit_of_mem_head? hne ('-' :: rest)
  rw [hsign] at hdigit
  cases sign <;> cases hdigit _ rfl

end Dash

theorem PrefixedSpelling.dash_not_mem (p : PrefixedSpelling) : '-' ∉ p.text := by
  have hmark : ∀ pair ∈ [('x', 16), ('X', 16), ('o', 8), ('O', 8), ('b', 2), ('B', 2)], '-' ≠ pair.1 := by decide
  have hdigit : '-' ∉ p.digits := fun h => by
    have hmem : '-' ∈ "0123456789abcdef".toList := List.mem_of_mem_take (p.isDigit '-' h)
    exact absurd hmem (by decide)
  rw [text, List.mem_cons, List.mem_cons, not_or, not_or]
  exact ⟨by decide, hmark _ p.isMark, hdigit⟩

/-- A dash behind digits makes a text no number. -/
theorem Number.read?_dash {digits : Digits} (hne : digits.chars ≠ []) (rest : Text) :
    read? (digits.chars ++ '-' :: rest) = none := by
  have htrim : (digits.chars ++ '-' :: rest).trim = digits.chars ++ '-' :: rest.trimEnd := by
    rw [Text.trim_append hne fun c hc => Text.isBlank_of_isDigit (digits.isDigit c hc), Text.trimEnd_cons (by decide)]
  have hprefixed : readPrefixed? (digits.chars ++ '-' :: rest.trimEnd) = none := by
    refine Option.eq_none_iff_forall_ne_some.2 fun number h => ?_
    obtain ⟨p, hp⟩ := PrefixedSpelling.exists_text h
    exact p.dash_not_mem (hp ▸ List.mem_append_right _ List.mem_cons_self)
  rw [read?, htrim, readInfinite?_dash hne, hprefixed, DecimalLiteral.read?_dash hne]
  rfl

theorem Instant.exists_day_append {text : Text} {instant : Instant} (h : ofIso? text = some instant) :
    ∃ (d : DaySpelling) (rest : Text), text = d.text ++ rest := by
  rcases exists_text h with ⟨s, rfl⟩ | ⟨f, rfl⟩
  · cases s with
    | day d => exact ⟨d, [], (List.append_nil _).symm⟩
    | time d t => exact ⟨d, _, rfl⟩
    | milli d t m zulu => exact ⟨d, _, rfl⟩
  · exact ⟨f.day, _, rfl⟩

/-- A date begins with the digits of its year and a dash. -/
theorem Instant.exists_dash {text : Text} {instant : Instant} (h : ofIso? text = some instant) :
    ∃ digits : Digits, digits.chars ≠ [] ∧ ∃ rest, text = digits.chars ++ '-' :: rest := by
  obtain ⟨d, rest, rfl⟩ := exists_day_append h
  have hne : d.year.chars ≠ [] := List.ne_nil_of_length_pos (by rw [d.year.length_chars]; decide)
  exact ⟨d.year.toDigits, hne, _, dayText_append ..⟩

/-- What is read as a date is a date among the scalars. -/
theorem Node.ofScalar_of_ofIso? {text : Text} {instant : Instant} (h : Instant.ofIso? text = some instant) :
    ofScalar text = date instant := by
  obtain ⟨digits, hne, rest, rfl⟩ := Instant.exists_dash h
  have hmem : '-' ∈ digits.chars ++ '-' :: rest := List.mem_append_right _ List.mem_cons_self
  rw [ofScalar, if_neg (List.ne_nil_of_mem hmem), Text.bool?_eq_none (by decide) hmem, Number.read?_dash hne, h]
  rfl

end FilterQuery
