import FilterQuery.Proofs.Instant.RoundTrip
import FilterQuery.Proofs.Number.Written
import FilterQuery.Proofs.WellFormed
/-!
# Names of fields are canonical

The left-hand side of a comparison may be spelled in many ways, and the name of the field is
the one way in which its scalar is written. The name need not be a scalar of the same kind:
that of an infinity or of the empty text is a plain string, and a great double may be written
with the digits of an integer. But `Node.fieldName_ofScalar_fieldName` says that it is always its
own name.
-/

namespace FilterQuery

/-- A date that was read is read again from its name. -/
theorem Node.ofScalar_toText {text : Text} {instant : Instant} (h : Instant.ofIso? text = some instant) :
    ofScalar instant.toText = date instant := by
  have hnames : ∃ s : IsoSpelling, s.Names instant := by
    rcases Instant.ofIso?_eq_some_iff.1 h with ⟨s, -, hs⟩ | ⟨f, -, hf⟩
    · exact ⟨s, hs⟩
    · exact ⟨f.wholeSecond, hf⟩
  obtain ⟨s, hs⟩ := hnames
  have hread := Instant.ofIso?_toText hs.hasFourDigitYear
  rw [hs.truncate_eq] at hread
  exact ofScalar_of_ofIso? hread

/-- The name of a number that was read is its own name. -/
theorem Node.fieldName_ofScalar_number {text : Text} {n : Number} (h : Number.read? text = some n) :
    (ofScalar (number n).fieldName.toList).fieldName = (number n).fieldName := by
  have hnamed := Number.read?_eq_some_iff.1 h
  cases n with
  | integer n =>
    obtain ⟨hleast, hgreatest⟩ := hnamed.bounds
    rw [fieldName, String.toList_ofList, ofScalar_ofInt hleast hgreatest, fieldName]
  | real d =>
    obtain ⟨hnan, hsafe⟩ := hnamed.not_safe
    rw [fieldName, String.toList_ofList, Double.fieldName_ofScalar_fieldText hnan hsafe]

/-- The name that a text gives a field is its own name, whatever kind of scalar the text is. -/
theorem Node.fieldName_ofScalar_fieldName (text : Text) :
    (ofScalar (ofScalar text).fieldName.toList).fieldName = (ofScalar text).fieldName := by
  rcases ofScalar_cases text with h | ⟨b, h⟩ | ⟨n, hread, h⟩ | ⟨instant, hread, h⟩ | h
  · rw [h]
    rfl
  · rw [h]
    cases b <;> rfl
  · rw [h]
    exact fieldName_ofScalar_number hread
  · rw [h, fieldName, String.toList_ofList, ofScalar_toText hread, fieldName]
  · rw [h, fieldName, String.toList_ofList, h, fieldName]

-- a double whose name is that of an integer
example : Number.read? "1e16".toList ≠ Number.read? "10000000000000000".toList ∧
    (Node.ofScalar "1e16".toList).fieldName = "10000000000000000" := by decide +kernel

end FilterQuery
