import FilterQuery.Number.Layout
/-!
# Numbers

A number is an integer of 64 bits or a double.
-/

namespace FilterQuery

/-- A number of a query or of a JSON text. -/
inductive Number where
  | integer (value : Int)
  | real (value : Double)
  deriving DecidableEq

namespace Number

/-- The greatest integer of 64 bits. -/
def maxInteger : Int := 9223372036854775807

/-- The least integer of 64 bits. -/
def minInteger : Int := -9223372036854775808

/-- The greatest magnitude up to which doubles hold every integer. -/
def maxSafeInteger : Nat := 9007199254740991

/-- The integer if it fits into 64 bits. -/
def ofInt? (n : Int) : Option Number :=
  if minInteger ≤ n ∧ n ≤ maxInteger then some (integer n) else none

/-- A double as a number: whole doubles that are exact integers become
integers. -/
def ofDouble (d : Double) : Number :=
  match d.toInt? with
  | some n => if n.natAbs ≤ maxSafeInteger then integer n else real d
  | none => real d

end Number

end FilterQuery
