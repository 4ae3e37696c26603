import FilterQuery.Instant.Iso
import FilterQuery.Node
import FilterQuery.Number.Literal
/-!
# Scalars

Text that no other rule claims is a scalar, recognised by its spelling: empty text
is null, then come booleans, numbers and written dates, and all else is a string.
-/

namespace FilterQuery

namespace Text

/-- The texts are equal when ASCII letters lose their case. -/
def sameLetters (s t : Text) : Bool := s.map Char.toLower = t.map Char.toLower

/-- The boolean that a text names, in any case. -/
def bool? (text : Text) : Option Bool :=
  if text.sameLetters "true".toList then some true
  else if text.sameLetters "false".toList then some false
  else none

end Text

namespace Node

/-- The scalar that a text names. -/
def ofScalar (text : Text) : Node :=
  if text = [] then null
  else
    let scalar? := text.bool?.map bool <|> (Number.read? text).map number <|>
      (Instant.ofIso? text).map date
    scalar?.getD (string (String.ofList text))

/-- What a text is among the scalars, and what was read for it. -/
theorem ofScalar_cases (text : Text) : ofScalar text = null ∨ (∃ b, ofScalar text = bool b) ∨
    (∃ n, Number.read? text = some n ∧ ofScalar text = number n) ∨
    (∃ instant, Instant.ofIso? text = some instant ∧ ofScalar text = date instant) ∨
    ofScalar text = string (String.ofList text) := by
  unfold ofScalar
  split
  · exact .inl rfl
  · cases text.bool? with
    | some b => exact .inr (.inl ⟨b, rfl⟩)
    | none =>
      cases Number.read? text with
      | some n => exact .inr (.inr (.inl ⟨n, rfl, rfl⟩))
      | none =>
        cases Instant.ofIso? text with
        | some instant => exact .inr (.inr (.inr (.inl ⟨instant, rfl, rfl⟩)))
        | none => exact .inr (.inr (.inr (.inr rfl)))

end Node

end FilterQuery
