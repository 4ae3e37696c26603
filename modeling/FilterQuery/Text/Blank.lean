import FilterQuery.Text.Basic
/-!
# Blanks

A blank is a character with the Unicode property White_Space. Operands are
trimmed of blanks at both ends; stored operator text loses all of them.
-/

namespace FilterQuery

/-- The character has the Unicode property White_Space. -/
def isBlank (c : Char) : Bool :=
  let n := c.toNat
  (0x9 ≤ n && n ≤ 0xD) || n == 0x20 || n == 0x85 || n == 0xA0 || n == 0x1680 ||
    (0x2000 ≤ n && n ≤ 0x200A) || n == 0x2028 || n == 0x2029 || n == 0x202F || n == 0x205F ||
    n == 0x3000

namespace Text

/-- The text without the blanks at its end. -/
def trimEnd (text : Text) : Text := (text.reverse.dropWhile isBlank).reverse

/-- The text without the blanks at its two ends. -/
def trim (text : Text) : Text := trimEnd (text.dropWhile isBlank)

/-- The text without any blank. -/
def dropBlanks (text : Text) : Text := text.filter (! isBlank ·)

theorem dropBlanks_append (s t : Text) : dropBlanks (s ++ t) = dropBlanks s ++ dropBlanks t :=
  List.filter_append ..

end Text

end FilterQuery
