import FilterQuery.Json.Basic
import FilterQuery.Number.Literal
/-!
# Reading JSON text

The reader is strict: one value with blanks around it, no lone surrogates, no raw
control characters in strings, arrays and objects nested at most `maxDepth` deep,
and no number too great for a double.
-/

namespace FilterQuery

namespace Json

/-- How deep arrays and objects may be nested. -/
def maxDepth : Nat := 127

/-- The character may stand between the parts of a JSON text. -/
def isSpace (c : Char) : Bool := c = ' ' || c = '\t' || c = '\n' || c = '\r'

/-- The text without the spaces in front. -/
def skip (text : Text) : Text := text.dropWhile isSpace

/-! ## Strings -/

/-- Four hexadecimal digits and what follows them. -/
def hexUnit? : Text → Option (Nat × Text)
  | a :: b :: c :: d :: rest => (Text.natValue? 16 [a, b, c, d]).map (·, rest)
  | _ => none

/-- The character of an escape that is one letter behind the backslash. -/
def unescape? : Char → Option Char
  | '"' => some '"'
  | '\\' => some '\\'
  | '/' => some '/'
  | 'b' => some '\x08'
  | 'f' => some '\x0c'
  | 'n' => some '\n'
  | 'r' => some '\r'
  | 't' => some '\t'
  | _ => none

/-- The character of a `\u` escape, whose digits are next in the text, with the
second half of a surrogate pair where the first half asks for one. -/
def unicodeEscape? (text : Text) : Option (Char × Text) := do
  let (unit, rest) ← hexUnit? text
  if unit < 0xD800 ∨ 0xDFFF < unit then some (Char.ofNat unit, rest)
  else if 0xDBFF < unit then none
  else match rest with
    | '\\' :: 'u' :: rest =>
      let (second, rest) ← hexUnit? rest
      if second < 0xDC00 ∨ 0xDFFF < second then none
      else some (Char.ofNat (0x10000 + (unit - 0xD800) * 0x400 + (second - 0xDC00)), rest)
    | _ => none

/-- The rest of a string up to its closing quotation mark, and what follows. -/
def readString? : (fuel : Nat) → Text → Option (Text × Text)
  | 0, _ => none
  | _ + 1, [] => none
  | fuel + 1, c :: text =>
    if c = '"' then some ([], text)
    else if c = '\\' then do
      let (c, rest) ← match text with
        | 'u' :: text => unicodeEscape? text
        | mark :: text => (unescape? mark).map (·, text)
        | [] => none
      let (s, rest) ← readString? fuel rest
      some (c :: s, rest)
    else if c.toNat < 0x20 then none
    else do
      let (s, rest) ← readString? fuel text
      some (c :: s, rest)

/-! ## Numbers -/

/-- The significand is the longest run of leading digits below 2 ^ 64, with the
number of digits taken. -/
def significand (digits : Text) : Nat × Nat := take 0 0 digits
where
  /-- Takes digits as long as the number stays below 2 ^ 64. -/
  take (value count : Nat) : Text → Nat × Nat
    | [] => (value, count)
    | c :: digits =>
      let next := value * 10 + (c.toNat - '0'.toNat)
      if next < Nat.pow 2 64 then take next (count + 1) digits else (value, count)

/-- The double of a significand and a decimal exponent. Both factors of a great
number are rounded before they are multiplied; an infinite product is refused. -/
def scale? (negative : Bool) (d : Decimal) : Option Double :=
  if d.significand = 0 then some (.ofCode negative 0)
  else if d.exponent < 0 then some (.ofDecimal negative d)
  else
    let product := Double.product negative (.ofNat negative d.significand)
      (.ofDecimal negative ⟨1, d.exponent⟩)
    if product.isFinite then some product else none

/-- The integer of sign and digits if it fits into 64 bits, signed or not; minus
zero is a double. -/
def integer? (negative : Bool) (digits : Text) : Option Number := do
  let n ← Text.natValue? 10 digits
  if negative then (if n = 0 ∨ Nat.pow 2 63 < n then none else some (.integer (-n)))
  else if n < Nat.pow 2 64 then some (.integer n) else none

/-- The number of a literal whose digits have been taken apart. -/
def numberOf? (literal : DecimalLiteral) : Option Number :=
  let double? :=
    let digits := literal.whole ++ literal.fraction
    let (value, count) := significand digits
    (scale? literal.negative ⟨value, literal.exponent + literal.whole.length - count⟩).map Number.real
  if literal.isPlain then integer? literal.negative literal.whole <|> double? else double?

/-- The exponent part of a number, if there is one, and what follows. -/
def exponent? : Text → Option (Option Int × Text)
  | [] => some (none, [])
  | mark :: text =>
    if mark = 'e' ∨ mark = 'E' then
      let (negative, text) := DecimalLiteral.takeSign text
      let (digits, rest) := text.span Char.isDigit
      if digits = [] then none
      else (Text.natValue? 10 digits).map fun n => (some (if negative then -(n : Int) else n), rest)
    else some (none, mark :: text)

/-- The fraction of a number, if there is one, and what follows. -/
def fraction? : Text → Option (Option Text × Text)
  | '.' :: text =>
    let (digits, rest) := text.span Char.isDigit
    if digits = [] then none else some (some digits, rest)
  | text => some (none, text)

/-- A number at the head of a text, and what follows. -/
def readNumber? (text : Text) : Option (Number × Text) := do
  let (negative, text) := match text with
    | '-' :: text => (true, text)
    | text => (false, text)
  let (whole, text) := text.span Char.isDigit
  if whole = [] ∨ (whole.head? = some '0' ∧ 1 < whole.length) then none
  else
    let (fraction, text) ← fraction? text
    let (exponent, text) ← exponent? text
    let number ← numberOf?
      ⟨negative, whole, fraction.getD [], exponent.getD 0, fraction.isNone && exponent.isNone⟩
    some (number, text)

/-! ## Values -/

mutual

/-- A value at the head of a text, nested at most `room` deep, and what follows. -/
def readValue? : (fuel room : Nat) → Text → Option (Json × Text)
  | 0, _, _ => none
  | fuel + 1, room, text =>
    match skip text with
    | 'n' :: 'u' :: 'l' :: 'l' :: rest => some (null, rest)
    | 't' :: 'r' :: 'u' :: 'e' :: rest => some (bool true, rest)
    | 'f' :: 'a' :: 'l' :: 's' :: 'e' :: rest => some (bool false, rest)
    | '"' :: rest => (readString? fuel rest).map fun (s, rest) => (string (String.ofList s), rest)
    | '[' :: rest =>
      match room, skip rest with
      | 0, _ => none
      | _ + 1, ']' :: rest => some (array [], rest)
      | room + 1, rest => (readItems? fuel room rest).map fun (items, rest) => (array items, rest)
    | '\x7b' :: rest =>
      match room, skip rest with
      | 0, _ => none
      | _ + 1, '\x7d' :: rest => some (object [], rest)
      | room + 1, rest =>
        (readMembers? fuel room rest).map fun (members, rest) => (ofMembers members, rest)
    | rest => (readNumber? rest).map fun (n, rest) => (number n, rest)

/-- One or more items up to the closing bracket, and what follows it. -/
def readItems? : (fuel room : Nat) → Text → Option (List Json × Text)
  | 0, _, _ => none
  | fuel + 1, room, text => do
    let (item, rest) ← readValue? fuel room text
    match skip rest with
    | ',' :: rest => (readItems? fuel room rest).map fun (items, rest) => (item :: items, rest)
    | ']' :: rest => some ([item], rest)
    | _ => none

/-- One or more members up to the closing brace, and what follows it. -/
def readMembers? : (fuel room : Nat) → Text → Option (List (String × Json) × Text)
  | 0, _, _ => none
  | fuel + 1, room, text =>
    match skip text with
    | '"' :: rest => do
      let (name, rest) ← readString? fuel rest
      match skip rest with
      | ':' :: rest =>
        let (value, rest) ← readValue? fuel room rest
        let member := (String.ofList name, value)
        match skip rest with
        | ',' :: rest =>
          (readMembers? fuel room rest).map fun (members, rest) => (member :: members, rest)
        | '\x7d' :: rest => some ([member], rest)
        | _ => none
      | _ => none
    | _ => none

end

/-- The value that a text is the JSON text of. Every step takes a character off
the text or goes from a list to its first item, so twice its length bounds their
number. -/
def read? (text : Text) : Option Json := do
  let (value, rest) ← readValue? (2 * text.length + 2) maxDepth text
  if skip rest = [] then some value else none

end Json

end FilterQuery
