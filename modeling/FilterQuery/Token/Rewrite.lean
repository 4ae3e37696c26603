import FilterQuery.Text.Blank
import FilterQuery.Text.Digit
import FilterQuery.Token.Table
import FilterQuery.Token.Tier
/-!
# Tokenizing

A filter is rewritten into a skeleton: tier by tier, the parts that the tier finds
are replaced by keys, and each lift is noted down: the tier, the key and what the
key stands for. The table holds the lifts without their tiers. A literal is stored
as it is, a group as the rewritten text between its parentheses, and all else as it
stands; blanks are dropped from all but literals. The key of a group is minted
before and stored after the keys of its content.
-/

namespace FilterQuery

/-- A part that a tier lifted out of a text, with the key that took its place. -/
structure Lift where
  tier : Tier
  key : Text
  value : Text

/-- The entry that a lift leaves in the table. -/
def Lift.entry (lift : Lift) : Entry := ⟨lift.key, lift.value⟩

/-- Mints keys and notes down what they stand for. -/
structure Minter where
  suffix : Text
  minted : Nat
  newestFirst : List Lift

namespace Minter

/-- A minter that has minted no key. -/
def new (suffix : Text) : Minter := ⟨suffix, 0, []⟩

/-- The key of a number. -/
def key (suffix : Text) (n : Nat) : Text := 'x' :: Text.ofNat n ++ '_' :: suffix

/-- The next key. -/
def next (minter : Minter) : Text := key minter.suffix (minter.minted + 1)

/-- The minter after minting the next key. -/
def mint (minter : Minter) : Minter := { minter with minted := minter.minted + 1 }

/-- The minter after storing what a key stands for. -/
def store (minter : Minter) (tier : Tier) (key value : Text) : Minter :=
  { minter with newestFirst := ⟨tier, key, value⟩ :: minter.newestFirst }

/-- Rewrites a text by the given tiers, in at most `fuel` steps. -/
def rewrite : (fuel : Nat) → List Tier → Minter → Text → Text × Minter
  | 0, _, minter, text => (text, minter)
  | _ + 1, [], minter, text => (text, minter)
  | fuel + 1, tier :: tiers, minter, text =>
    match tier.find? text with
    | none => rewrite fuel tiers minter text
    | some part =>
      let (value, after) := match tier with
        | .literal _ => (part, minter.mint)
        | .group =>
          let (content, after) := rewrite fuel Tier.all minter.mint part.interior
          (content.dropBlanks, after)
        | _ => (part.dropBlanks, minter.mint)
      rewrite fuel (tier :: tiers) (after.store tier minter.next value)
        (text.replaceFirst part minter.next)

end Minter

/-- The result of tokenizing a filter. -/
structure Tokenized where
  skeleton : Text
  newestFirst : List Lift

namespace Tokenized

/-- The table of what keys stand for. -/
def table (tokenized : Tokenized) : Table := ⟨tokenized.newestFirst.map Lift.entry⟩

/-- More steps than rewriting a text takes. Each tier ends in one step, and each
part that is lifted out takes an operator, a quote or a parenthesis with it; the
square leaves room for suffixes that bring such characters back. -/
def steps (suffix input : Text) : Nat :=
  let size := input.length + suffix.length + 16
  size * size

/-- Tokenizes a filter with keys of a suffix. -/
def ofText (suffix input : Text) : Tokenized :=
  let (skeleton, minter) := Minter.rewrite (steps suffix input) Tier.all (.new suffix) input
  ⟨skeleton, minter.newestFirst⟩

end Tokenized

end FilterQuery
