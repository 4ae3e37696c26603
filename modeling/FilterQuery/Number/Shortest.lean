import FilterQuery.Number.Double
/-!
# Shortest decimals

The decimal written for a double is one that reads back as it, has as few digits
as possible and is the nearest of those. Fewest digits means the coarsest grid
of multiples of a power of ten with a point that reads back, so the grids are
tried from coarse to fine.
-/

namespace FilterQuery

/-- Where a value goes that lies halfway between two points of a grid. -/
inductive Tie where
  | toEven
  | up

namespace Double

/-- The multiplier of the point of the grid of multiples of `10 ^ exponent` that
is nearest to the magnitude of a code, if some point of the grid rounds to the
code. Lengths are counted in halves of the unit of `units`. -/
def gridPoint? (tie : Tie) (code : Nat) (exponent : Int) : Option Nat :=
  let scale := Nat.pow 10 (-exponent).toNat
  let step := Nat.pow 10 exponent.toNat * Nat.pow 2 1075
  let value := 2 * units code * scale
  let low := (units (code - 1) + units code) * scale
  let high := (units code + units (code + 1)) * scale
  let roundsBack (point : Nat) : Bool :=
    if code % 2 = 0 then low ≤ point * step && point * step ≤ high
    else low < point * step && point * step < high
  let below := value / step
  let above := below + 1
  match roundsBack below, roundsBack above with
  | true, true =>
    let toBelow := value - below * step
    let toAbove := above * step - value
    if toBelow < toAbove then some below
    else if toAbove < toBelow then some above
    else match tie with
      | .toEven => some (below + below % 2)
      | .up => some above
  | true, false => some below
  | false, true => some above
  | false, false => none

/-- The exponents of the grids, from the coarsest that a double can need down to
one finer than the unit. -/
def gridExponents : List Int := (List.range 633).map fun (i : Nat) => 308 - Int.ofNat i

/-- The shortest decimal that reads back as the magnitude of a code. -/
def shortest (tie : Tie) (code : Nat) : Decimal :=
  if code = 0 then ⟨0, 0⟩
  else (gridExponents.findSome? fun e => (gridPoint? tie code e).map (⟨·, e⟩)).getD ⟨0, 0⟩

end Double

end FilterQuery
