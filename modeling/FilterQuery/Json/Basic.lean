import FilterQuery.Number.Basic
/-!
# JSON values

The members of an object are kept in the order of their names by code point,
each name once. `Json.ofMembers` builds that form from any list of members; of
two members of one name the later one stays.
-/

namespace FilterQuery

/-- A JSON value. -/
inductive Json where
  | null
  | bool (value : Bool)
  | number (value : Number)
  | string (value : String)
  | array (items : List Json)
  | object (members : List (String × Json))

namespace Json

/-- Members in order of their names with one more put among them, in place of a
member of the same name. -/
def insertMember (name : String) (value : Json) : List (String × Json) → List (String × Json)
  | [] => [(name, value)]
  | (other, held) :: members =>
    if name < other then (name, value) :: (other, held) :: members
    else if name = other then (name, value) :: members
    else (other, held) :: insertMember name value members

/-- The object of a list of members. -/
def ofMembers (members : List (String × Json)) : Json :=
  .object (members.foldl (fun placed member => insertMember member.1 member.2 placed) [])

/-- What kind of value it is, in words. -/
def kind : Json → String
  | null => "null"
  | bool _ => "boolean"
  | number _ => "number"
  | string _ => "string"
  | array _ => "array"
  | object _ => "object"

end Json

end FilterQuery
