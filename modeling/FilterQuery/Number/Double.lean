/-!
# Binary64 numbers

A finite double is a sign and a code, the low 63 bits of its binary64 pattern.
Codes are ordered as the magnitudes they stand for, and every magnitude is a
whole number of units of 2 ^ -1074, so rounding a rational is a search among
codes in exact arithmetic. `Decimal` is what is read and what is written.
-/

namespace FilterQuery

/-- The decimal number `significand * 10 ^ exponent`. -/
structure Decimal where
  significand : Nat
  exponent : Int
  deriving DecidableEq

/-- The code of infinity; finite doubles have the codes below it. -/
def infinityCode : Nat := 0x7FF0000000000000

/-- A binary64 number, all NaNs taken for one. -/
inductive Double where
  | nan
  | infinite (negative : Bool)
  | finite (negative : Bool) (code : Fin infinityCode)
  deriving DecidableEq

namespace Double

/-- The magnitude of a code in units of 2 ^ -1074. The code of infinity counts
as 2 ^ 1024, where the next double would be. -/
def units (code : Nat) : Nat :=
  let band := code / Nat.pow 2 52
  let fraction := code % Nat.pow 2 52
  if band = 0 then fraction else (Nat.pow 2 52 + fraction) * Nat.pow 2 (band - 1)

/-- The number whose bits, from `bit - 1` down, are added to `code` as long as
the sum passes the test. -/
def raise (passes : Nat → Bool) : (bit code : Nat) → Nat
  | 0, code => code
  | bit + 1, code =>
    let next := code + Nat.pow 2 bit
    raise passes bit (if passes next then next else code)

/-- The greatest code up to infinity's whose magnitude is at most
`num / den` units. -/
def floorCode (num den : Nat) : Nat :=
  raise (fun code => code ≤ infinityCode && units code * den ≤ num) 63 0

/-- The code whose magnitude is nearest to `num / den` units; a tie goes to the
even code. -/
def nearestCode (num den : Nat) : Nat :=
  let low := floorCode num den
  let middle := (units low + units (low + 1)) * den
  if low = infinityCode then low
  else if 2 * num < middle then low
  else if middle < 2 * num then low + 1
  else low + low % 2

/-- The double of a sign and a code; infinity's code and all above it are
infinite. -/
def ofCode (negative : Bool) (code : Nat) : Double :=
  if h : code < infinityCode then finite negative ⟨code, h⟩ else infinite negative

/-- The double nearest to `num / den`. -/
def ofRatio (negative : Bool) (num den : Nat) : Double :=
  ofCode negative (nearestCode (num * Nat.pow 2 1074) den)

/-- The double nearest to a decimal. Decimals far outside the range of doubles
are settled by their exponent alone. -/
def ofDecimal (negative : Bool) (d : Decimal) : Double :=
  if d.significand = 0 then ofCode negative 0
  else if 308 < d.exponent then infinite negative
  else if d.significand.log2 + 3 * d.exponent < -1080 then ofCode negative 0
  else ofRatio negative (d.significand * Nat.pow 10 d.exponent.toNat) (Nat.pow 10 (-d.exponent).toNat)

/-- The double nearest to a natural number. -/
def ofNat (negative : Bool) (n : Nat) : Double := ofRatio negative n 1

/-- The double nearest to the product of two magnitudes. -/
def product (negative : Bool) : Double → Double → Double
  | finite _ a, finite _ b => ofRatio negative (units a * units b) (Nat.pow 2 2148)
  | _, _ => infinite negative

/-- The number is neither infinite nor NaN. -/
def isFinite : Double → Bool
  | finite .. => true
  | _ => false

/-- The integer that a double is, if it is whole. -/
def toInt? : Double → Option Int
  | finite negative code =>
    let size := units code
    if size % Nat.pow 2 1074 = 0 then
      let magnitude : Int := (size / Nat.pow 2 1074 : Nat)
      some (if negative then -magnitude else magnitude)
    else none
  | _ => none

/-- The double of a binary64 pattern. -/
def ofBits (bits : Nat) : Double :=
  let negative := bits.testBit 63
  let code := bits % Nat.pow 2 63
  if infinityCode < code then nan else ofCode negative code

/-- The binary64 pattern of a double; NaN has the quiet one. -/
def toBits : Double → Nat
  | nan => infinityCode + Nat.pow 2 51
  | infinite negative => (if negative then Nat.pow 2 63 else 0) + infinityCode
  | finite negative code => (if negative then Nat.pow 2 63 else 0) + code

end Double

end FilterQuery
