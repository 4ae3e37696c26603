import FilterQuery.FieldName
import FilterQuery.Scalar
import FilterQuery.Shape
import FilterQuery.Token.Table
/-!
# Compiling

A text is compiled against a table and a clock: it is followed through the table
and taken for what its shape says. The parts of lists, comparisons and groups of
clauses are compiled one level deeper; below the last level all is null.
Following the table costs no level.
-/

namespace FilterQuery

/-- The deepest level that is compiled; the outermost is level 0. -/
def defaultCeiling : Nat := 256

namespace Comparison

/-- What a comparison says about a field, given the compiled value. The symbols
`=` and `!=` take a list with items for a set. -/
def constraint (symbol : Comparison) (value : Node) : Node :=
  match symbol with
  | greaterEqual => .ofOperator .gte value
  | greater => .ofOperator .gt value
  | lessEqual => .ofOperator .lte value
  | less => .ofOperator .lt value
  | strictNotEqual => .ofOperator .ne value
  | notEqual => .ofOperator (if value.isNonEmptyList then .nin else .ne) value
  | strictEqual => value
  | equal => if value.isNonEmptyList then .ofOperator .isIn value else value
  | regexInsensitive => .object [(.operator .regex, value), (.operator .caseInsensitive, .bool true)]
  | regex => .ofOperator .regex value

end Comparison

namespace Node

/-- The clauses among nodes, under the operator of a connective. -/
def ofClauses (connective : Connective) (parts : List Node) : Node :=
  .ofOperator connective.operator (.list (parts.filter (·.isClause)))

end Node

/-- The tree of an operand of a shape: its parts are compiled, and what its text
spells out is read. -/
def Shape.node {τ : Type} (spell : τ → Text) (compile : τ → Node) : Shape τ → Node
  | null => .null
  | date instant => .date instant
  | quoted content => .string (String.ofList (spell content))
  | list items => .list (items.map compile)
  | comparison symbol left right =>
    .ofField (compile left).fieldName (symbol.constraint (compile right))
  | clauses connective parts => .ofClauses connective (parts.map compile)
  | scalar text => .ofScalar (spell text)

namespace Table

/-- Compiles a text with a number of levels to go. -/
def compileWithin (table : Table) (clock : Instant) : (levels : Nat) → Text → Node
  | 0, _ => .null
  | levels + 1, text =>
    match table.resolve? text with
    | none => .null
    | some text => (Shape.ofText clock text).node id (compileWithin table clock levels)

/-- Compiles a text that stands at a depth, under a ceiling. -/
def compileAt (table : Table) (clock : Instant) (ceiling depth : Nat) (text : Text) : Node :=
  table.compileWithin clock (ceiling + 1 - depth) text

/-- Compiles a text under the default ceiling. -/
def compile (table : Table) (clock : Instant) (text : Text) : Node :=
  table.compileAt clock defaultCeiling 0 text

end Table

end FilterQuery
