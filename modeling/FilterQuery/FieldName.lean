import FilterQuery.Dialect
/-!
# Field names

The left-hand side of a comparison is compiled like any other operand, and the
tree it gives is written as the name of a field.
-/

namespace FilterQuery

namespace Double

/-- Doubles in field names are written without an exponent, whole ones without a
fraction, and of two shortest decimals that are equally near the greater one. -/
def fieldLayout : Layout where
  tie := .up
  positional := none
  wholeFraction := false

/-- The text of a double in a field name. -/
def fieldText : Double → Text
  | nan => "NaN".toList
  | infinite negative => (if negative then "-inf" else "inf").toList
  | finite negative code => fieldLayout.write negative code

end Double

namespace Node

/-- The name of the field that a node stands for. -/
def fieldName : Node → String
  | null => "null"
  | bool true => "true"
  | bool false => "false"
  | number (.integer n) => String.ofList (Text.ofInt n)
  | number (.real d) => String.ofList d.fieldText
  | string s => s
  | date instant => String.ofList instant.toText
  | list items => (list items).compact .plain
  | object entries => (object entries).compact .plain

end Node

end FilterQuery
