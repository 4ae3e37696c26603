import FilterQuery.Number.Basic
import FilterQuery.Text.Blank
/-!
# Number literals

Three notations name numbers: `Infinity` with an optional sign, digits of base
16, 8 or 2 behind `0x`, `0o` or `0b`, and decimals with optional sign, point and
exponent. Blanks around a literal are ignored.
-/

namespace FilterQuery

/-- A decimal literal, taken apart. -/
structure DecimalLiteral where
  negative : Bool
  whole : Text
  fraction : Text
  exponent : Int
  /-- The literal consists of an optional sign and digits. -/
  isPlain : Bool

namespace DecimalLiteral

/-- An optional sign and what follows it. -/
def takeSign : Text → Bool × Text
  | '-' :: text => (true, text)
  | '+' :: text => (false, text)
  | text => (false, text)

/-- The value of an exponent part that takes up a whole text. -/
def exponent? (text : Text) : Option Int :=
  match text with
  | [] => some 0
  | mark :: text =>
    if mark = 'e' ∨ mark = 'E' then
      let (negative, digits) := takeSign text
      if digits = [] then none
      else (Text.natValue? 10 digits).map fun n => if negative then -(n : Int) else n
    else none

/-- Takes a decimal literal apart: digits on at least one side of an optional
point, with an optional sign and exponent. -/
def read? (text : Text) : Option DecimalLiteral :=
  let (negative, text) := takeSign text
  let (whole, rest) := text.span Char.isDigit
  match rest with
  | '.' :: rest =>
    let (fraction, rest) := rest.span Char.isDigit
    if whole = [] ∧ fraction = [] then none
    else (exponent? rest).map fun e => ⟨negative, whole, fraction, e, false⟩
  | _ =>
    if whole = [] then none
    else (exponent? rest).map fun e => ⟨negative, whole, [], e, rest = []⟩

/-- The magnitude of a literal. -/
def magnitude (literal : DecimalLiteral) : Decimal where
  significand := (Text.natValue? 10 (literal.whole ++ literal.fraction)).getD 0
  exponent := literal.exponent - literal.fraction.length

/-- The value of a literal of sign and digits only, if it fits into 64 bits. -/
def integer? (literal : DecimalLiteral) : Option Number :=
  if literal.isPlain then
    let size : Int := literal.magnitude.significand
    Number.ofInt? (if literal.negative then -size else size)
  else none

/-- The number of a literal: the exact integer where sign and digits name one,
else the nearest double. -/
def toNumber (literal : DecimalLiteral) : Number :=
  literal.integer?.getD (.ofDouble (.ofDecimal literal.negative literal.magnitude))

end DecimalLiteral

namespace Number

/-- The base that a prefix announces, and the digits behind it. -/
def base? : Text → Option (Nat × Text)
  | '0' :: mark :: digits =>
    if mark = 'x' ∨ mark = 'X' then some (16, digits)
    else if mark = 'o' ∨ mark = 'O' then some (8, digits)
    else if mark = 'b' ∨ mark = 'B' then some (2, digits)
    else none
  | _ => none

/-- The integer that prefixed digits name, if it fits into 64 bits. -/
def readPrefixed? (text : Text) : Option Number := do
  let (base, digits) ← base? text
  if digits = [] then none
  else ofInt? (← Text.natValue? base digits)

/-- The infinity that a text names. -/
def readInfinite? (text : Text) : Option Number :=
  if text = "Infinity".toList ∨ text = "+Infinity".toList then some (real (.infinite false))
  else if text = "-Infinity".toList then some (real (.infinite true))
  else none

/-- The number that a text names, blanks around it ignored. -/
def read? (text : Text) : Option Number :=
  let text := text.trim
  readInfinite? text <|> readPrefixed? text <|> (DecimalLiteral.read? text).map (·.toNumber)

end Number

end FilterQuery
