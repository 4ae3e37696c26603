/-!
# Documentation

The texts that the command line shows, by topic. Every topic has further names.
-/

namespace FilterQuery

/-- A topic of the documentation. -/
inductive Topic where
  | grammar
  | operators
  | values
  | dialects
  deriving DecidableEq

namespace Topic

/-- The names that a topic goes by, in lower case. -/
def names : Topic → List String
  | grammar => ["syntax", "grammar"]
  | operators => ["operators", "ops"]
  | values => ["values", "literals", "types"]
  | dialects => ["dialects", "dialect", "output"]

/-- The topic of a name in any case. ASCII case is enough, because no other
character has a letter of these names as its lower case. -/
def ofName? (name : String) : Option Topic :=
  [grammar, operators, values, dialects].find? (·.names.contains name.toLower)

/-- The list of topics. -/
def overview : String :=
  "QFILTER DOCUMENTATION

qfilter compiles compact filter expressions into document-database query
objects. It never runs queries; it only produces the filter.

DOCUMENTATION CATEGORIES

  syntax            Grouping, quoting, and operator precedence
  operators         Comparison and logical operators and what they produce
  values            Literal forms: null, numbers, booleans, dates, lists
  dialects          Output spellings (plain, mongo)

QUICK REFERENCE

  a = 1             Equality
  a = [1, 2]        Set membership
  a > 0 & b < 5     Both must hold
  a = 1 | b = 2     Either may hold
  ( ... )           Grouping
  'text' \"text\"     Literal text, never scanned for operators

Run 'qfilter doc <category>' for detailed documentation.
"

/-- How filters are put together. -/
def grammarText : String :=
  "SYNTAX

PRECEDENCE (tightest first)
  ( ... )                     Grouping
  '...'  \"...\"                Quoted text
  >= > <= < !== != == = ~* ~  Comparisons
  &                           Conjunction
  |                           Disjunction

  a = 1 & b = 2 | c = 3 & d = 4
    => \x7bor: [\x7band: [\x7ba: 1\x7d, \x7bb: 2\x7d]\x7d, \x7band: [\x7bc: 3\x7d, \x7bd: 4\x7d]\x7d]\x7d

  a = 1 & (b = 2 | c = 3) & d = 4
    => \x7band: [\x7ba: 1\x7d, \x7bor: [\x7bb: 2\x7d, \x7bc: 3\x7d]\x7d, \x7bd: 4\x7d]\x7d

WHITESPACE
  Whitespace around operators is ignored. Unquoted values lose all
  whitespace: x = hello world compares against \"helloworld\".
  Quote text to keep it: x = 'hello world'.

QUOTES
  Quoted text is taken verbatim. Operators inside quotes are not operators:
    d ~ 'a + b & c = 0'   => \x7bd: \x7bregex: \"a + b & c = 0\"\x7d\x7d

MALFORMED INPUT
  Nothing is rejected. Unrecognized text becomes a plain value, clauses
  that are not conditions are dropped from & and | groups, and empty
  input produces null.
"

/-- What each operator becomes. -/
def operatorsText : String :=
  "OPERATORS

COMPARISON
  a >= v     \x7ba: \x7bgte: v\x7d\x7d
  a > v      \x7ba: \x7bgt: v\x7d\x7d
  a <= v     \x7ba: \x7blte: v\x7d\x7d
  a < v      \x7ba: \x7blt: v\x7d\x7d
  a = v      \x7ba: v\x7d
  a = [..]   \x7ba: \x7bin: [..]\x7d\x7d       (non-empty list)
  a == v     \x7ba: v\x7d                (lists are never folded)
  a != v     \x7ba: \x7bne: v\x7d\x7d
  a != [..]  \x7ba: \x7bnin: [..]\x7d\x7d      (non-empty list)
  a !== v    \x7ba: \x7bne: v\x7d\x7d          (lists are never folded)
  a ~ v      \x7ba: \x7bregex: v\x7d\x7d
  a ~* v     \x7ba: \x7bregex: v, caseInsensitive: true\x7d\x7d

LOGICAL
  p & q      \x7band: [p, q]\x7d
  p | q      \x7bor: [p, q]\x7d
"

/-- How values are written. -/
def valuesText : String :=
  "VALUES

  null                  null
  true, FALSE           booleans (any case)
  42, -1.5, 1e3, 0x1f   numbers
  2025-10-01            date (UTC midnight)
  2025-10-01T08:30:00   date and time (UTC)
  now                   current time
  now-7d, now+2h        offset from now (units d, h, m, s; default d)
  'text', \"text\"        text
  [1, 'a', null]        list
  anything else         text
"

/-- How operators are spelled in the output. -/
def dialectsText : String :=
  "DIALECTS

Select with --dialect.

  plain (default)   gte gt lte lt ne nin in regex and or
                    case-insensitive regex: \"caseInsensitive\": true

  mongo             $gte $gt $lte $lt $ne $nin $in $regex $and $or
                    case-insensitive regex: \"$options\": \"i\"

Dates are rendered as ISO-8601 strings, e.g. \"2025-10-01T00:00:00.000Z\".
"

/-- The text of a topic. -/
def text : Topic → String
  | grammar => grammarText
  | operators => operatorsText
  | values => valuesText
  | dialects => dialectsText

end Topic

end FilterQuery
