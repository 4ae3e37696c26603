import FilterQuery.Json.Basic
/-!
# JSON text

One writer serves two styles: compact text without any space, and pretty text
with one item a line, indented by two spaces a level. Strings escape quotation
marks, backslashes and control characters below U+0020 and nothing else.
-/

namespace FilterQuery

namespace Json

/-- The hexadecimal digit of a number below 16, in lower case. -/
def hexDigit (n : Nat) : Char := Nat.digitChar n

/-- A character as it stands in a string. -/
def escape (c : Char) : Text :=
  if c = '"' then ['\\', '"']
  else if c = '\\' then ['\\', '\\']
  else if c = '\x08' then ['\\', 'b']
  else if c = '\x0c' then ['\\', 'f']
  else if c = '\n' then ['\\', 'n']
  else if c = '\r' then ['\\', 'r']
  else if c = '\t' then ['\\', 't']
  else if c.toNat < 0x20 then
    ['\\', 'u', '0', '0', hexDigit (c.toNat / 16), hexDigit (c.toNat % 16)]
  else [c]

/-- A string in quotation marks. -/
def quote (s : String) : Text := '"' :: (s.toList.flatMap escape ++ ['"'])

/-- Doubles have a fraction or an exponent. The first digit stands at most five
places behind the point and at most fifteen places before the last whole one in
text without exponent, and of two shortest decimals that are equally near the
even one is written. -/
def layout : Layout where
  tie := .toEven
  positional := some (-5, 15)
  wholeFraction := true

/-- A number; infinities and NaN have no JSON text and become null. -/
def numberText : Number → Text
  | .integer n => Text.ofInt n
  | .real (.finite negative code) => layout.write negative code
  | .real _ => "null".toList

/-- How the parts of arrays and objects are set apart. -/
structure Style where
  /-- What stands before an item at a depth. -/
  lineBreak : Nat → Text
  /-- What stands between a name and its value. -/
  colon : Text

/-- No space at all. -/
def compactStyle : Style := ⟨fun _ => [], [':']⟩

/-- One item a line, two spaces for each level. -/
def prettyStyle : Style := ⟨fun depth => '\n' :: List.replicate (2 * depth) ' ', [':', ' ']⟩

mutual

/-- The text of a value that stands at a depth. -/
def write (style : Style) (depth : Nat) : Json → Text
  | null => "null".toList
  | bool true => "true".toList
  | bool false => "false".toList
  | number n => numberText n
  | string s => quote s
  | array [] => ['[', ']']
  | array (item :: items) =>
    '[' :: (style.lineBreak (depth + 1) ++ write style (depth + 1) item ++
      writeItems style (depth + 1) items ++ style.lineBreak depth ++ [']'])
  | object [] => ['\x7b', '\x7d']
  | object ((name, value) :: members) =>
    '\x7b' :: (style.lineBreak (depth + 1) ++ quote name ++ style.colon ++
      write style (depth + 1) value ++ writeMembers style (depth + 1) members ++
      style.lineBreak depth ++ ['\x7d'])

/-- The further items of an array, each behind a comma. -/
def writeItems (style : Style) (depth : Nat) : List Json → Text
  | [] => []
  | item :: items =>
    ',' :: (style.lineBreak depth ++ write style depth item ++ writeItems style depth items)

/-- The further members of an object, each behind a comma. -/
def writeMembers (style : Style) (depth : Nat) : List (String × Json) → Text
  | [] => []
  | (name, value) :: members =>
    ',' :: (style.lineBreak depth ++ quote name ++ style.colon ++ write style depth value ++
      writeMembers style depth members)

end

/-- The text of a value without any space. -/
def compact (value : Json) : String := String.ofList (write compactStyle 0 value)

/-- The text of a value with one item a line. -/
def pretty (value : Json) : String := String.ofList (write prettyStyle 0 value)

end Json

end FilterQuery
