/-!
# Operators

Operators of the query, the comparisons that are written in filters, and the two
connectives.
-/

namespace FilterQuery

/-- A key of the query language inside an object. -/
inductive Operator where
  | gte
  | gt
  | lte
  | lt
  | ne
  | nin
  | isIn
  | regex
  | caseInsensitive
  | and
  | or
  deriving DecidableEq

namespace Operator

/-- All operators. -/
def all : List Operator :=
  [gte, gt, lte, lt, ne, nin, isIn, regex, caseInsensitive, and, or]

/-- The bare name of an operator. -/
def name : Operator → String
  | gte => "gte"
  | gt => "gt"
  | lte => "lte"
  | lt => "lt"
  | ne => "ne"
  | nin => "nin"
  | isIn => "in"
  | regex => "regex"
  | caseInsensitive => "caseInsensitive"
  | and => "and"
  | or => "or"

/-- The operator of a bare name. -/
def ofName? (name : String) : Option Operator := all.find? (·.name = name)

end Operator

/-- A comparison of a field with a value. -/
inductive Comparison where
  | greaterEqual
  | greater
  | lessEqual
  | less
  | strictNotEqual
  | notEqual
  | strictEqual
  | equal
  | regexInsensitive
  | regex
  deriving DecidableEq

namespace Comparison

/-- All comparisons in the order in which they are looked for: a symbol comes
before any shorter symbol that it contains. -/
def all : List Comparison :=
  [greaterEqual, greater, lessEqual, less, strictNotEqual, notEqual, strictEqual, equal,
    regexInsensitive, regex]

/-- The symbol that stands between field and value. -/
def symbol : Comparison → List Char
  | greaterEqual => ['>', '=']
  | greater => ['>']
  | lessEqual => ['<', '=']
  | less => ['<']
  | strictNotEqual => ['!', '=', '=']
  | notEqual => ['!', '=']
  | strictEqual => ['=', '=']
  | equal => ['=']
  | regexInsensitive => ['~', '*']
  | regex => ['~']

end Comparison

/-- A connective between clauses. -/
inductive Connective where
  | and
  | or
  deriving DecidableEq

namespace Connective

/-- The connectives in the order in which they are looked for. -/
def all : List Connective := [and, or]

/-- The character that stands between clauses. -/
def symbol : Connective → Char
  | and => '&'
  | or => '|'

/-- The operator that holds the clauses. -/
def operator : Connective → Operator
  | and => .and
  | or => .or

end Connective

end FilterQuery
