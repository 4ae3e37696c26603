import FilterQuery.Compile
import FilterQuery.Json.Reader
import FilterQuery.Token.Rewrite
import FilterQuery.Token.Suffix
/-!
# Converting filters

A filter is converted by tokenizing it and compiling the skeleton. Conversion never
fails: blank text is null, and malformed text gives whatever can be made of it.
-/

namespace FilterQuery

/-- Converts a filter with token keys of a suffix. -/
def convertWith (suffix : Text) (clock : Instant) (input : Text) : Node :=
  if input.trim = [] then .null
  else
    let tokenized := Tokenized.ofText suffix input
    tokenized.table.compile clock tokenized.skeleton

/-- Converts a filter. -/
def convert (clock : Instant) (input : String) : Node :=
  convertWith (Suffix.fresh input.toList) clock input.toList

/-- Converts a filter that comes as a JSON value and renders the result; values
other than strings become null. -/
def convertJson (clock : Instant) (dialect : Dialect) : Json → Json
  | .string input => (convert clock input).toJson dialect
  | _ => .null

end FilterQuery
