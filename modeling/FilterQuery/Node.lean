import FilterQuery.Instant.Basic
import FilterQuery.Number.Basic
import FilterQuery.Operator
/-!
# Query trees

A filter compiles to a query tree. Operators stand in it as such; a `Dialect`
spells them when the tree is written.
-/

namespace FilterQuery

/-- The key of an entry of an object. -/
inductive Key where
  | field (name : String)
  | operator (op : Operator)
  deriving DecidableEq

/-- A query tree. The entries of an object keep their order. -/
inductive Node where
  | null
  | bool (value : Bool)
  | number (value : Number)
  | string (value : String)
  | date (value : Instant)
  | list (items : List Node)
  | object (entries : List (Key × Node))

namespace Node

/-- The object of one field. -/
def ofField (name : String) (value : Node) : Node := object [(.field name, value)]

/-- The object of one operator. -/
def ofOperator (op : Operator) (value : Node) : Node := object [(.operator op, value)]

/-- The node may stand as a clause under a connective. -/
def isClause : Node → Bool
  | object _ => true
  | list _ => true
  | date _ => true
  | _ => false

/-- The node is a list with an item. -/
def isNonEmptyList : Node → Bool
  | list (_ :: _) => true
  | _ => false

end Node

end FilterQuery
