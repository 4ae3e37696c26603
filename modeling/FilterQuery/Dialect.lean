import FilterQuery.Json.Printer
import FilterQuery.Node
/-!
# Dialects

A dialect spells the operators of a query tree. The plain dialect uses bare names;
the Mongo dialect puts a dollar sign in front and writes a case-insensitive
regular expression with `$options`.
-/

namespace FilterQuery

/-- A spelling of operators. -/
inductive Dialect where
  | plain
  | mongo
  deriving DecidableEq

namespace Dialect

/-- The name of a dialect. -/
def name : Dialect → String
  | plain => "plain"
  | mongo => "mongo"

/-- The dialect of exactly this name. -/
def ofName? (name : String) : Option Dialect := [plain, mongo].find? (·.name = name)

/-- The dialect that a name in any case means. ASCII case is enough, because no
other character has a letter of these names as its lower case. -/
def ofAlias? (name : String) : Option Dialect :=
  let lower := name.toLower
  if lower = "mongodb" then some mongo else ofName? lower

/-- The key of an operator. -/
def operatorKey : Dialect → Operator → String
  | plain, op => op.name
  | mongo, .caseInsensitive => "$options"
  | mongo, op => "$" ++ op.name

end Dialect

namespace Dialect

/-- The member that an entry becomes, given the JSON value of its node. The Mongo
dialect has letters for the options of a regular expression. -/
def member (dialect : Dialect) (key : Key) (value : Node) (json : Json) : String × Json :=
  match key with
  | .field name => (name, json)
  | .operator op =>
    (dialect.operatorKey op, match dialect, op, value with
      | mongo, .caseInsensitive, .bool flag => .string (if flag then "i" else "")
      | _, _, _ => json)

end Dialect

/-- The JSON value of a number; there is none for infinities and NaN. -/
def Number.toJson : Number → Json
  | .integer n => .number (.integer n)
  | .real d => if d.isFinite then .number (.real d) else .null

namespace Node

mutual

/-- The JSON value of a query tree. -/
def toJson (dialect : Dialect) : Node → Json
  | null => .null
  | bool b => .bool b
  | number n => n.toJson
  | string s => .string s
  | date instant => .string (String.ofList instant.toText)
  | list items => .array (itemsToJson dialect items)
  | object entries => .ofMembers (entriesToJson dialect entries)

/-- The JSON values of nodes. -/
def itemsToJson (dialect : Dialect) : List Node → List Json
  | [] => []
  | item :: items => toJson dialect item :: itemsToJson dialect items

/-- The members that entries become. -/
def entriesToJson (dialect : Dialect) : List (Key × Node) → List (String × Json)
  | [] => []
  | (key, value) :: entries =>
    dialect.member key value (toJson dialect value) :: entriesToJson dialect entries

end

/-- The compact JSON text of a query tree. -/
def compact (dialect : Dialect) (node : Node) : String := (node.toJson dialect).compact

/-- The indented JSON text of a query tree. -/
def pretty (dialect : Dialect) (node : Node) : String := (node.toJson dialect).pretty

end Node

end FilterQuery
