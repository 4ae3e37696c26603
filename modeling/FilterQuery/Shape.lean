import FilterQuery.Instant.Relative
import FilterQuery.Operator
import FilterQuery.Text.Blank
/-!
# Shapes of operands

What a text means is decided by its shape alone: the word `null`, a date relative
to the clock, a quoted literal, a list in brackets, a comparison, clauses under a
connective, or else a scalar. The shapes are tried in this order.
-/

namespace FilterQuery

/-- The shape of an operand, with the parts that are to be compiled in their turn.
The parts of a text are texts. -/
inductive Shape (τ : Type) where
  | null
  | date (instant : Instant)
  | quoted (content : τ)
  | list (items : List τ)
  | comparison (symbol : Comparison) (left right : τ)
  | clauses (connective : Connective) (parts : List τ)
  | scalar (text : τ)

namespace Shape

/-- The text between two characters that stand first and last, if neither of the
given characters occurs in it. -/
def between? (first last : Char) : Text → Option Text
  | [] => none
  | c :: text =>
    let content := text.dropLast
    if c = first ∧ text.getLast? = some last ∧ first ∉ content ∧ last ∉ content then some content
    else none

/-- The content of a text that is one quoted literal. -/
def quoted? (text : Text) : Option Text := between? '\'' '\'' text <|> between? '"' '"' text

/-- The items of a text that is one list in brackets; lists do not nest. -/
def list? (text : Text) : Option (List Text) :=
  (between? '[' ']' text).map fun content =>
    if content = [] then [] else (content.splitOn ',').map Text.trim

/-- The comparison whose symbol is the first in order to occur in a text. -/
def comparison? (text : Text) : Option (Shape Text) :=
  Comparison.all.findSome? fun c =>
    (Text.operands? c.symbol text).map fun (left, right) => comparison c left.trim right.trim

/-- The clauses of a text in which a connective occurs. -/
def clauses? (text : Text) : Option (Shape Text) :=
  (Connective.all.find? (text.contains ·.symbol)).map fun c =>
    clauses c ((text.splitOn c.symbol).map Text.trim)

/-- The shape of a text under a clock. -/
def ofText (clock : Instant) (text : Text) : Shape Text :=
  if text = "null".toList then null
  else
    let shape? := (clock.ofRelative? text).map date <|> (quoted? text).map quoted <|>
      (list? text).map list <|> comparison? text <|> clauses? text
    shape?.getD (scalar text)

end Shape

end FilterQuery
