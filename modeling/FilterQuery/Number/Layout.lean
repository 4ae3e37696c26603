import FilterQuery.Number.Shortest
import FilterQuery.Text.Digit
/-!
# Layouts of numbers

A layout says how the shortest decimal of a double is set as text: which way a
tie between two shortest decimals goes, which magnitudes are written without an
exponent, and whether whole numbers get a fraction.
-/

namespace FilterQuery

/-- How a finite double is written. -/
structure Layout where
  /-- Where a tie between two shortest decimals goes. -/
  tie : Tie
  /-- The decimal exponents of the first digit, from the first up to the second,
  that are written without an exponent part; none means all. -/
  positional : Option (Int × Int)
  /-- A whole number written without exponent part ends in a point and a zero. -/
  wholeFraction : Bool

namespace Decimal

/-- The decimal exponent of the first digit. -/
def leading (d : Decimal) : Int := d.exponent + (Text.ofNat d.significand).length - 1

/-- The decimal written without an exponent part. -/
def positional (wholeFraction : Bool) (d : Decimal) : Text :=
  let digits := Text.ofNat d.significand
  let places := (-d.exponent).toNat
  if places = 0 then
    let zeros := if d.significand = 0 then 0 else d.exponent.toNat
    digits ++ List.replicate zeros '0' ++ (if wholeFraction then ['.', '0'] else [])
  else if places < digits.length then
    digits.take (digits.length - places) ++ '.' :: digits.drop (digits.length - places)
  else '0' :: '.' :: List.replicate (places - digits.length) '0' ++ digits

/-- The decimal written with one digit before the point and a signed exponent. -/
def scientific (d : Decimal) : Text :=
  let digits := Text.ofNat d.significand
  let fraction := digits.drop 1
  let exponent := d.leading
  digits.take 1 ++ (if fraction = [] then [] else '.' :: fraction) ++
    'e' :: (if exponent < 0 then '-' else '+') :: Text.ofNat exponent.natAbs

end Decimal

namespace Layout

/-- The text of a finite double of a sign and a code. -/
def write (layout : Layout) (negative : Bool) (code : Nat) : Text :=
  let d := Double.shortest layout.tie code
  let isPositional := match layout.positional with
    | none => true
    | some (first, last) => first ≤ d.leading && d.leading ≤ last
  (if negative then ['-'] else []) ++
    (if isPositional then d.positional layout.wholeFraction else d.scientific)

end Layout

namespace Text

/-- The digits of an integer, with a minus sign in front of a negative one. -/
def ofInt (n : Int) : Text := (if n < 0 then ['-'] else []) ++ ofNat n.natAbs

end Text

end FilterQuery
