import FilterQuery.Proofs.Passage.Exhausted
/-!
# Skeletons are normal forms

The tiers have one turn each, and a later tier never gives an earlier one something to
lift. So one pass is enough: `Tokenized.ofText_skeleton` says that no tier finds anything
in a skeleton, and that tokenizing it once more leaves it as it is. Inputs with empty
parentheses are left out.
-/

namespace FilterQuery

/-- No tier finds anything in the text. -/
def Text.IsNormal (text : Text) : Prop := ∀ tier ∈ Tier.all, tier.find? text = none

/-- Tiers that find nothing leave the text as it is, and mint no keys. -/
theorem Minter.rewrite_of_find? {tiers : List Tier} {text : Text} (h : ∀ tier ∈ tiers, tier.find? text = none)
    (fuel : Nat) (minter : Minter) : rewrite fuel tiers minter text = (text, minter) := by
  induction fuel generalizing tiers with
  | zero => rfl
  | succ fuel ih =>
    cases tiers with
    | nil => rfl
    | cons tier tiers =>
      rw [rewrite_pass (h tier List.mem_cons_self)]
      exact ih fun other hm => h other (List.mem_cons_of_mem _ hm)

theorem Text.IsNormal.ofText {text : Text} (h : text.IsNormal) (suffix : Text) :
    Tokenized.ofText suffix text = ⟨text, []⟩ := by
  rw [Tokenized.ofText, Minter.rewrite_of_find? h]
  rfl

namespace Passage

theorem filled_ofText {text : Text} (h : Text.occurs "()".toList text = false) :
    Tier.Filled Piece.view (ofText text) := by
  have hviews : (ofText text).map Piece.view = text.map some := by
    simp [ofText, Function.comp_def, Piece.view]
  rw [Tier.Filled, hviews]
  intro hwithin
  refine Text.occurs_eq_false_iff.1 h ((infix_map_iff_of_injective (Option.some_injective _)).1 ?_)
  exact hwithin

theorem isNormal_spell {suffix : Text} (hs : Suffix.IsHex suffix) {p : Passage}
    (h : ∀ tier ∈ Tier.all, tier.Exhausted Piece.view p) : (spell suffix p).IsNormal := by
  intro tier ht
  rw [find?_spell hs ht, (h tier ht).search?_eq_none]
  rfl

end Passage

namespace Tokenized

open Passage

/-- Skeletons are normal forms: there is no conjunction in them, no tier finds anything, and
tokenizing them again, with whatever keys, changes nothing and stores nothing. -/
theorem ofText_skeleton {input suffix : Text} (hs : Suffix.IsHex suffix) (h : Text.occurs "()".toList input = false) :
    '&' ∉ (ofText suffix input).skeleton ∧ (ofText suffix input).skeleton.IsNormal ∧
      ∀ other, ofText other (ofText suffix input).skeleton = ⟨(ofText suffix input).skeleton, []⟩ := by
  have hexhausted : ∀ tier ∈ Tier.all, tier.Exhausted Piece.view (tokenize input).1 := by
    intro tier ht
    exact exhausted_rewrite True [] rfl (fun _ => filled_ofText h) (by simp) tier ht
      (fun _ => trivial)
  have hnormal : (spell suffix (tokenize input).1).IsNormal := isNormal_spell hs hexhausted
  rw [ofText_eq hs]
  refine ⟨?_, hnormal, hnormal.ofText⟩
  rw [mem_spell_iff hs (by decide)]
  exact not_mem_rewrite .new (Passage.ofText input)

/-- Quotes and parentheses without partners find none later on. -/
theorem ofText_skeleton_unbalanced :
    let input := "a)&b=1|'c(d=2&(e>3)|(\"f".toList
    let skeleton := (ofText "f0".toList input).skeleton
    Suffix.IsHex "f0".toList ∧ Text.occurs "()".toList input = false ∧ skeleton = "x5_f0|x6_f0|(\"f".toList ∧
      '&' ∉ skeleton ∧ skeleton.IsNormal ∧ ∀ other, ofText other skeleton = ⟨skeleton, []⟩ := by
  intro input skeleton
  have hs : Suffix.IsHex "f0".toList := rfl
  have h : Text.occurs "()".toList input = false := by decide
  exact ⟨hs, h, by decide, ofText_skeleton hs h⟩

/-- Empty parentheses are passed over at first, but are a group once a key has taken the
place of what stands beside them. -/
example : Tier.group.find? (ofText "f0".toList "(|()b=1|)".toList).skeleton = some "(|x1_f0|)".toList := by decide

end Tokenized

end FilterQuery
