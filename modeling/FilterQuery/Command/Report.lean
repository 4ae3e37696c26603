import FilterQuery.Command.Failure
import FilterQuery.Command.Topic
import FilterQuery.Convert
/-!
# What commands compute

Each command is a plain function from its input to the text that it reports or the
reason why there is none.
-/

namespace FilterQuery

namespace Json

/-- The text of a value, in one line or indented. -/
def render (isPretty : Bool) (value : Json) : String :=
  if isPretty then value.pretty else value.compact

end Json

namespace Report

/-- The JSON text that a filter converts to. -/
def convert (clock : Instant) (dialect : Dialect) (isPretty : Bool) (query : String) : String :=
  ((FilterQuery.convert clock query).toJson dialect).render isPretty

/-- Converts the items of a JSON array one by one. -/
def batch (clock : Instant) (dialect : Dialect) (isPretty : Bool) (input : Option String) :
    Except Failure String := do
  let some text := input | throw .noInput
  let some value := Json.read? text.toList | throw .invalidJson
  match value with
  | .array items => return (Json.array (items.map (convertJson clock dialect))).render isPretty
  | other => throw (.notArray other.kind)

/-- The skeleton of a tokenized filter and the entries of its table, one a line. -/
def tokenized (tokenized : Tokenized) : String :=
  let entries := tokenized.table.toList.map fun entry =>
    "  " ++ String.ofList entry.key ++ " = " ++ String.ofList entry.value ++ "\n"
  "skeleton: " ++ String.ofList tokenized.skeleton ++ "\n" ++ String.join entries

/-- The skeleton and the table of a filter, tokenized with a suffix that is free in
it. -/
def tokenize (query : String) : String :=
  tokenized (.ofText (Suffix.fresh query.toList) query.toList)

/-- The text of a topic. -/
def topic (name : String) : Except Failure String :=
  match Topic.ofName? name with
  | some topic => .ok topic.text
  | none => .error (.unknownTopic name)

end Report

end FilterQuery
