import FilterQuery.Instant.Relative
import FilterQuery.Proofs.Instant.Fields
import FilterQuery.Proofs.Number.Reading
import FilterQuery.Scalar
import Mathlib.Data.List.Infix
import Mathlib.Data.List.TakeWhile
/-!
# What is recognised

Dates relative to the clock, booleans, numbers and written dates consist of few
characters. A text with another character is none of them; in particular a text
with an underscore is no scalar but a string.
-/

namespace FilterQuery

theorem mem_dropWhile_of_eq_false {α : Type} {p : α → Bool} {a : α} {l : List α} (ha : p a = false)
    (hm : a ∈ l) : a ∈ l.dropWhile p := by
  rw [← List.takeWhile_append_dropWhile (p := p) (l := l)] at hm
  rcases List.mem_append.1 hm with hm | hm
  · rw [List.mem_takeWhile_imp hm] at ha
    cases ha
  · exact hm

/-! ## Dates relative to the clock -/

/-- The character may stand in a date relative to the clock. -/
def isOffsetChar (c : Char) : Bool :=
  c ∈ ['n', 'o', 'w', '+', '-', 'd', 'h', 'm', 's'] || isDecimalDigit c

namespace Instant

theorem unitSeconds?_eq_none {c : Char} {unit : Text} (hc : isOffsetChar c = false) (hm : c ∈ unit) :
    unitSeconds? unit = none := by
  have hne : unit ≠ [] ∧ unit ≠ ['d'] ∧ unit ≠ ['h'] ∧ unit ≠ ['m'] ∧ unit ≠ ['s'] := by
    refine ⟨?_, ?_, ?_, ?_, ?_⟩ <;> (rintro rfl; simp at hm) <;> (subst hm; simp [isOffsetChar] at hc)
  simp [unitSeconds?, hne]

theorem ofOffset?_eq_none {clock : Instant} {c : Char} {offset : Text} (hc : isOffsetChar c = false)
    (hm : c ∈ offset) (negative : Bool) : clock.ofOffset? negative offset = none := by
  have hdigit : isDecimalDigit c = false := (Bool.or_eq_false_iff.1 hc).2
  have hunit : c ∈ offset.dropWhile isDecimalDigit := mem_dropWhile_of_eq_false hdigit hm
  rw [ofOffset?, List.span_eq_takeWhile_dropWhile]
  simp only [unitSeconds?_eq_none hc hunit, Option.map_none, ite_self]

theorem ofRelative?_eq_none {clock : Instant} {c : Char} {text : Text} (hc : isOffsetChar c = false)
    (hm : c ∈ text) : clock.ofRelative? text = none := by
  have hne : ∀ d ∈ ['n', 'o', 'w', '+', '-'], c ≠ d := by
    rintro d hd rfl
    simp only [List.mem_cons, List.not_mem_nil, or_false] at hd
    rcases hd with rfl | rfl | rfl | rfl | rfl <;> simp [isOffsetChar] at hc
  have hoffset : ∀ front offset : Text, front ⊆ ['n', 'o', 'w', '+', '-'] → c ∈ front ++ offset → c ∈ offset := by
    intro front offset hfront hm
    rcases List.mem_append.1 hm with hm | hm
    · exact absurd rfl (hne c (hfront hm))
    · exact hm
  unfold ofRelative?
  split
  · cases hoffset ['n', 'o', 'w'] [] (by simp) hm
  · exact ofOffset?_eq_none hc (hoffset ['n', 'o', 'w', '+'] _ (by simp) hm) _
  · exact ofOffset?_eq_none hc (hoffset ['n', 'o', 'w', '-'] _ (by simp) hm) _
  · rfl

theorem now_prefix_of_ofRelative? {clock instant : Instant} {text : Text}
    (h : clock.ofRelative? text = some instant) :
    "now".toList <+: text := by
  unfold ofRelative? at h
  split at h
  · exact ⟨[], rfl⟩
  · exact ⟨_, rfl⟩
  · exact ⟨_, rfl⟩
  · cases h

end Instant

/-! ## Scalars -/

theorem Text.bool?_eq_none {c : Char} {text : Text} (hc : c.toLower ∉ "truefalse".toList) (hm : c ∈ text) :
    text.bool? = none := by
  have hlower : c.toLower ∈ text.map Char.toLower := List.mem_map_of_mem hm
  have hsame : ∀ word : Text, word.map Char.toLower ⊆ "truefalse".toList → text.sameLetters word = false := by
    intro word hw
    rw [sameLetters, decide_eq_false_iff_not]
    intro he
    exact hc (hw (he ▸ hlower))
  rw [bool?, hsame _ (by decide), hsame _ (by decide)]
  rfl

theorem Text.trim_eq_self {text : Text} (h : ∀ c ∈ text, isBlank c = false) : text.trim = text := by
  have hdrop : ∀ s : Text, (∀ c ∈ s, isBlank c = false) → s.dropWhile isBlank = s := by
    intro s hs
    cases s with
    | nil => rfl
    | cons c s => exact List.dropWhile_cons_of_neg (by simp [hs c List.mem_cons_self])
  have hreverse : ∀ c ∈ text.reverse, isBlank c = false := fun c hc => h c (List.mem_reverse.1 hc)
  rw [trim, hdrop text h, trimEnd, hdrop text.reverse hreverse, List.reverse_reverse]

theorem Text.mem_trim {c : Char} (hc : isBlank c = false) {text : Text} (hm : c ∈ text) : c ∈ text.trim := by
  have hdrop := mem_dropWhile_of_eq_false hc hm
  rw [trim, trimEnd, List.mem_reverse]
  exact mem_dropWhile_of_eq_false hc (List.mem_reverse.2 hdrop)

/-- The character may stand in a number. -/
def isNumeralChar (c : Char) : Bool :=
  c.isDigit || c ∈ "+-.eExXoObBInfinity".toList || c.toLower ∈ digitsOfBase 16

theorem isNumeralChar_sign (sign : Sign) : ∀ c ∈ sign.text, isNumeralChar c = true :=
  List.all_eq_true.1 (by cases sign <;> rfl)

theorem isNumeralChar_digits (digits : Digits) : ∀ c ∈ digits.chars, isNumeralChar c = true := by
  intro c hc
  rw [isNumeralChar, digits.isDigit c hc]
  rfl

theorem isNumeralChar_fraction (fraction : Option Digits) :
    ∀ c ∈ DecimalSpelling.fractionText fraction, isNumeralChar c = true := by
  cases fraction with
  | none => nofun
  | some digits => exact List.forall_mem_cons.2 ⟨rfl, isNumeralChar_digits digits⟩

theorem isNumeralChar_exponent (part : Option ExponentPart) :
    ∀ c ∈ DecimalSpelling.exponentText part, isNumeralChar c = true := by
  cases part with
  | none => nofun
  | some part =>
    have hmark : isNumeralChar part.mark = true := by
      rcases part.isMark with h | h <;> rw [h] <;> rfl
    exact List.forall_mem_cons.2
      ⟨hmark, List.forall_mem_append.2 ⟨isNumeralChar_sign part.sign, isNumeralChar_digits part.digits⟩⟩

theorem isNumeralChar_decimal (s : DecimalSpelling) : ∀ c ∈ s.text, isNumeralChar c = true := by
  simp only [DecimalSpelling.text, List.forall_mem_append]
  exact ⟨isNumeralChar_sign s.sign, isNumeralChar_digits s.whole, isNumeralChar_fraction s.fraction,
    isNumeralChar_exponent s.exponent⟩

theorem isNumeralChar_prefixed (p : PrefixedSpelling) : ∀ c ∈ p.text, isNumeralChar c = true := by
  have hmarks : ∀ pair ∈ [('x', 16), ('X', 16), ('o', 8), ('O', 8), ('b', 2), ('B', 2)],
      isNumeralChar pair.1 = true := by decide
  have hdigits : ∀ c ∈ p.digits, isNumeralChar c = true := by
    intro c hc
    have hmem : c.toLower ∈ digitsOfBase 16 := List.mem_of_mem_take (p.isDigit c hc)
    rw [isNumeralChar, decide_eq_true hmem, Bool.or_true]
  exact List.forall_mem_cons.2 ⟨rfl, List.forall_mem_cons.2 ⟨hmarks _ p.isMark, hdigits⟩⟩

theorem Number.isNumeralChar_of_isNumeral {text : Text} (h : IsNumeral text) : ∀ c ∈ text, isNumeralChar c = true := by
  cases h with
  | infinity sign => exact List.forall_mem_append.2 ⟨isNumeralChar_sign sign, List.all_eq_true.1 rfl⟩
  | prefixed p => exact isNumeralChar_prefixed p
  | decimal s => exact isNumeralChar_decimal s

theorem Number.read?_eq_none {c : Char} {text : Text} (hc : isNumeralChar c = false) (hblank : isBlank c = false)
    (hm : c ∈ text) : read? text = none := by
  rw [← Option.not_isSome_iff_eq_none, isSome_read?_iff]
  intro h
  rw [isNumeralChar_of_isNumeral h c (Text.mem_trim hblank hm)] at hc
  cases hc

theorem Instant.ofIso?_eq_none {c : Char} {text : Text} (hc : isIsoChar c = false) (hm : c ∈ text) :
    ofIso? text = none := by
  have hfields : isoFields? text = none := by
    refine Option.eq_none_iff_forall_ne_some.2 fun fields h => ?_
    rw [isIsoChar_of_spells (isoFields?_eq_some_iff.1 h) c hm] at hc
    cases hc
  rw [ofIso?, hfields]
  rfl

/-- A text with an underscore is a string. -/
theorem Node.ofScalar_eq_string {text : Text} (hm : '_' ∈ text) :
    ofScalar text = string (String.ofList text) := by
  have hne : text ≠ [] := List.ne_nil_of_mem hm
  rw [ofScalar, if_neg hne]
  simp only [Text.bool?_eq_none (by decide) hm, Number.read?_eq_none (by decide) (by decide) hm,
    Instant.ofIso?_eq_none (by decide) hm]
  rfl

/-! ## Names -/

/-- A word that is no number and no date, because it has no digit, and that is none of the
words that mean something else. -/
structure Text.IsName (text : Text) : Prop where
  ne_nil : text ≠ []
  not_blank : ∀ c ∈ text, isBlank c = false
  not_digit : ∀ c ∈ text, isDecimalDigit c = false
  not_sign : ∀ c ∈ text, c ≠ '+' ∧ c ≠ '-'
  not_now : text ≠ "now".toList
  not_infinity : text ≠ "Infinity".toList
  not_bool : text.map Char.toLower ≠ "true".toList ∧ text.map Char.toLower ≠ "false".toList

section Name
variable {text : Text} (h : text.IsName)
include h

theorem Text.IsName.trim_eq : text.trim = text := trim_eq_self h.not_blank

theorem Text.IsName.bool?_eq_none : text.bool? = none := by
  have htrue : text.sameLetters "true".toList = false := decide_eq_false h.not_bool.1
  have hfalse : text.sameLetters "false".toList = false := decide_eq_false h.not_bool.2
  rw [bool?, htrue, hfalse]
  rfl

theorem Text.IsName.ofRelative?_eq_none (clock : Instant) : clock.ofRelative? text = none := by
  unfold Instant.ofRelative?
  split
  · exact absurd rfl h.not_now
  · exact absurd rfl (h.not_sign '+' (by simp)).1
  · exact absurd rfl (h.not_sign '-' (by simp)).2
  · rfl

theorem Text.IsName.ofIso?_eq_none : Instant.ofIso? text = none := by
  obtain ⟨c, rest, rfl⟩ := List.exists_cons_of_ne_nil h.ne_nil
  have hdigits : Instant.takeDigits? 4 (c :: rest) = none := by
    rw [Instant.takeDigits?, h.not_digit c List.mem_cons_self]
    rfl
  rw [Instant.ofIso?, Instant.isoFields?, hdigits]
  rfl

theorem Text.IsName.readDecimal?_eq_none : DecimalLiteral.read? text = none := by
  have hsign : DecimalLiteral.takeSign text = (false, text) := by
    unfold DecimalLiteral.takeSign
    split
    · exact absurd rfl (h.not_sign '-' List.mem_cons_self).2
    · exact absurd rfl (h.not_sign '+' List.mem_cons_self).1
    · rfl
  have hdigit : ∀ s ⊆ text, s.takeWhile Char.isDigit = [] := by
    intro s hs
    cases s with
    | nil => rfl
    | cons c s =>
      apply List.takeWhile_cons_of_neg
      intro hdigit
      have hno := h.not_digit c (hs List.mem_cons_self)
      rw [isDecimalDigit_of_isDigit hdigit] at hno
      cases hno
  unfold DecimalLiteral.read?
  simp only [hsign, List.span_eq_takeWhile_dropWhile, hdigit text (List.Subset.refl _)]
  split
  · next rest heq =>
    have hrest : rest ⊆ text := fun c hc =>
      (List.dropWhile_suffix _).subset (heq ▸ List.mem_cons_of_mem _ hc)
    rw [hdigit rest hrest]
    simp
  · simp

theorem Text.IsName.readNumber?_eq_none : Number.read? text = none := by
  have hinfinite : Number.readInfinite? text = none := by
    have hplus : text ≠ "+Infinity".toList := by
      rintro rfl
      exact absurd rfl (h.not_sign '+' (by decide)).1
    have hminus : text ≠ "-Infinity".toList := by
      rintro rfl
      exact absurd rfl (h.not_sign '-' (by decide)).2
    rw [Number.readInfinite?, if_neg (not_or.2 ⟨h.not_infinity, hplus⟩), if_neg hminus]
  have hbase : Number.base? text = none := by
    unfold Number.base?
    split
    · exact absurd (h.not_digit '0' List.mem_cons_self) (by decide)
    · rfl
  rw [Number.read?, h.trim_eq, hinfinite, Number.readPrefixed?, hbase, h.readDecimal?_eq_none]
  rfl

/-- A name is a string. -/
theorem Text.IsName.ofScalar_eq : Node.ofScalar text = .string (String.ofList text) := by
  rw [Node.ofScalar, if_neg h.ne_nil, h.bool?_eq_none, h.readNumber?_eq_none, h.ofIso?_eq_none]
  rfl

end Name

end FilterQuery
