import FilterQuery.Operator
import FilterQuery.Text.Basic
/-!
# Tiers

The tokenizer lifts parts out of a text tier by tier: quoted literals first, so
that nothing in them is taken for an operator, then groups without inner
parentheses, comparisons, and conjunctions. `Tier.find?` is the part that a tier
lifts out next. Alternatives are never lifted; they stay in the skeleton.
-/

namespace FilterQuery

/-- A kind of part that the tokenizer lifts out. -/
inductive Tier where
  | literal (quote : Char)
  | group
  | comparison (symbol : Comparison)
  | conjunction

namespace Tier

/-- All tiers in their order. The symbols `!==` and `==` need no tier of their own,
because the tier of `=` lifts their comparisons as a whole. -/
def all : List Tier :=
  [literal '\'', literal '"', group, comparison .greaterEqual, comparison .greater,
    comparison .lessEqual, comparison .less, comparison .notEqual, comparison .equal,
    comparison .regexInsensitive, comparison .regex, conjunction]

/-- The first quoted literal, with its quotes. -/
def findLiteral? (quote : Char) : Text → Option Text
  | [] => none
  | c :: text =>
    if c = quote then
      let (content, rest) := text.span (· ≠ quote)
      if rest = [] then none else some (c :: content ++ [quote])
    else findLiteral? quote text

/-- The character is a parenthesis. -/
def isParenthesis (c : Char) : Bool := c = '(' || c = ')'

/-- The text up to the next parenthesis, if there is any and the parenthesis is a
closing one. -/
def groupContent? (text : Text) : Option Text :=
  let (content, rest) := text.span (! isParenthesis ·)
  if content ≠ [] ∧ rest.head? = some ')' then some content else none

/-- The first group that holds text without parentheses, and at least one character
of it. -/
def findGroup? : Text → Option Text
  | [] => none
  | c :: text =>
    match if c = '(' then groupContent? text else none with
    | some content => some (c :: content ++ [')'])
    | none => findGroup? text

/-- The character separates clauses. -/
def isConnective (c : Char) : Bool := c = '&' || c = '|'

/-- The first clause in which the symbol stands neither first nor last. -/
def findComparison? (symbol text : Text) : Option Text :=
  (text.splitOnP isConnective).find? (Text.occurs symbol ·.interior)

/-- The first alternative with a conjunction in it. -/
def findConjunction? (text : Text) : Option Text := (text.splitOn '|').find? (·.contains '&')

/-- The part that a tier lifts out of a text next. -/
def find? : Tier → Text → Option Text
  | literal quote, text => findLiteral? quote text
  | group, text => findGroup? text
  | comparison symbol, text => findComparison? symbol.symbol text
  | conjunction, text => findConjunction? text

end Tier

end FilterQuery
