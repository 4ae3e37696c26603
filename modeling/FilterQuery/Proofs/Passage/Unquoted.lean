import FilterQuery.Proofs.Passage.Exhausted
/-!
# Literals in single quotes

The tier of single quotes comes first and sees a text as it was written. It pairs the
quotes from left to right and puts a key in the place of each literal: `Unquoted` relates a
text to what is left of it, and `exists_rewrite_literals` says that the tier leaves this.
-/

namespace FilterQuery

open Passage

/-- Induction on the literals of a text from left to right. -/
theorem Text.literals_induction {P : Text → Prop} (plain : ∀ front, '\'' ∉ front → P front)
    (single : ∀ front rest, '\'' ∉ front → '\'' ∉ rest → P (front ++ '\'' :: rest))
    (literal : ∀ front content rest, '\'' ∉ front → '\'' ∉ content → P rest →
      P (front ++ '\'' :: (content ++ '\'' :: rest))) (text : Text) : P text := by
  induction hlen : text.length using Nat.strong_induction_on generalizing text with
  | _ length ih =>
    by_cases hquote : '\'' ∈ text
    · obtain ⟨front, rest, rfl, hfront⟩ := List.eq_append_cons_of_mem hquote
      by_cases hrest : '\'' ∈ rest
      · obtain ⟨content, rest, rfl, hcontent⟩ := List.eq_append_cons_of_mem hrest
        simp only [List.length_append, List.length_cons] at hlen
        exact literal front content rest hfront hcontent (ih rest.length (by omega) rest rfl)
      · exact single front rest hfront hrest
    · exact plain text hquote

namespace Passage

/-! ## Passages without literals -/

section Exhausted
variable {p q : Passage} {cut : Cut Piece}

/-- No literal in single quotes is left in the passage. -/
def Quoteless (p : Passage) : Prop := (Tier.literal '\'').Exhausted Piece.view p

theorem Quoteless.mono (h : Quoteless p) (hq : q.Sublist p) : Quoteless q :=
  fun hsub => h (hsub.trans (hq.map _))

theorem Quoteless.replace {tier : Tier} (h : Quoteless p) (hs : tier.search? Piece.view p = some cut)
    (lifted : Lifted) :
    Quoteless (cut.replace lifted) :=
  Tier.Exhausted.replace h hs (fun hclause => by cases hclause) lifted

theorem Quoteless.interior (h : Quoteless p) (hs : Tier.group.search? Piece.view p = some cut) :
    Quoteless (interior cut.part) := by
  apply h.mono
  rw [(Tier.append_of_search? hs).1, List.append_assoc]
  have hpart : (Passage.interior cut.part).Sublist cut.part :=
    (List.dropLast_sublist _).trans (List.tail_sublist _)
  exact hpart.trans ((List.sublist_append_left _ _).trans (List.sublist_append_right _ _))

theorem Quoteless.tier_ne {tier : Tier} (h : Quoteless p) (hs : tier.search? Piece.view p = some cut) :
    tier ≠ .literal '\'' := by
  rintro rfl
  rw [Tier.Exhausted.search?_eq_none h] at hs
  cases hs

end Exhausted

theorem quoteless_ofText {text : Text} (h : '\'' ∉ text) : Quoteless (ofText text) := by
  have hno : some '\'' ∉ (ofText text).map Piece.view := by simpa [ofText, Piece.view] using h
  intro hsub
  exact hno (hsub.subset List.mem_cons_self)

/-- A quote without a partner is no literal. -/
theorem quoteless_ofText_append_cons {front rest : Text} (hf : '\'' ∉ front) (hr : '\'' ∉ rest) :
    Quoteless (ofText (front ++ '\'' :: rest)) := by
  have hfront : some '\'' ∉ front.map some := by simpa using hf
  have hrest : some '\'' ∉ rest.map some := by simpa using hr
  have hview : (ofText (front ++ '\'' :: rest)).map Piece.view = front.map some ++ some '\'' :: rest.map some := by
    simp [ofText, Piece.view, Function.comp_def]
  intro hsub
  have hcount := hsub.count_le (some '\'')
  simp [hview, List.count_eq_zero.2 hfront, List.count_eq_zero.2 hrest] at hcount

/-! ## Lifting the literals out -/

/-- What is left of a text when its literals in single quotes are lifted out. A quote without a
partner stays. -/
inductive Unquoted : Text → Passage → Prop where
  | plain (front : Text) (hf : '\'' ∉ front) : Unquoted front (ofText front)
  | single (front rest : Text) (hf : '\'' ∉ front) (hr : '\'' ∉ rest) :
    Unquoted (front ++ '\'' :: rest) (ofText (front ++ '\'' :: rest))
  | literal (front content : Text) {rest : Text} {q : Passage} (number : Nat) (hf : '\'' ∉ front)
    (hc : '\'' ∉ content) (h : Unquoted rest q) :
    Unquoted (front ++ '\'' :: (content ++ '\'' :: rest))
      (ofText front ++ .key number (.literal '\'') (Tier.quotation '\'' (ofText content)) :: q)

section Literals
variable {k : Passage} (hk : (Tier.literal '\'').Passes k) (tiers : List Tier) (register : Register)
include hk

theorem rewrite_of_quoteless {p : Passage} (h : Quoteless p) :
    Quoteless (k ++ p) ∧ rewrite (.literal '\'' :: tiers) register (k ++ p) = rewrite tiers register (k ++ p) := by
  have hsearch : (Tier.literal '\'').search? Piece.view (k ++ p) = none := by
    rw [hk.search?_append, Tier.Exhausted.search?_eq_none h, Option.map_none]
  exact ⟨Tier.exhausted_of_search? hsearch (fun hgroup => by cases hgroup), rewrite_pass hsearch⟩

/-- The first tier lifts the literals in single quotes out of what stands between passages
without such quotes. -/
theorem exists_rewrite_literals (text : Text) {tail : Text} (htail : '\'' ∉ tail) :
    ∃ after q, Unquoted text q ∧ Quoteless (k ++ (q ++ ofText tail)) ∧
      rewrite (.literal '\'' :: tiers) register (k ++ (ofText text ++ ofText tail)) =
        rewrite tiers after (k ++ (q ++ ofText tail)) := by
  have happend : ∀ s t : Text, ofText (s ++ t) = ofText s ++ ofText t := fun s t => by simp [ofText]
  induction text using Text.literals_induction generalizing k register with
  | plain front hfront =>
    have hno : '\'' ∉ front ++ tail := by simp [hfront, htail]
    obtain ⟨hquoteless, hrewrite⟩ := rewrite_of_quoteless hk tiers register (quoteless_ofText hno)
    rw [happend] at hquoteless hrewrite
    exact ⟨register, ofText front, .plain front hfront, hquoteless, hrewrite⟩
  | single front rest hfront hrest =>
    have hno : '\'' ∉ rest ++ tail := by simp [hrest, htail]
    obtain ⟨hquoteless, hrewrite⟩ :=
      rewrite_of_quoteless hk tiers register (quoteless_ofText_append_cons hfront hno)
    rw [← List.cons_append, ← List.append_assoc, happend] at hquoteless hrewrite
    exact ⟨register, ofText (front ++ '\'' :: rest), .single front rest hfront hrest, hquoteless, hrewrite⟩
  | literal front content rest hfront hcontent ih =>
    let key := Piece.key register.next (.literal '\'') (Tier.quotation '\'' (ofText content))
    have hpasses : (Tier.literal '\'').Passes (k ++ ofText front) :=
      hk.append (Tier.passes_literal (by simpa [ofText] using hfront))
    have hkey : (Tier.literal '\'').Passes (k ++ ofText front ++ [key]) :=
      hpasses.append (Tier.passes_literal (by simp [key]))
    obtain ⟨after, q, hunquoted, hquoteless, hq⟩ :=
      ih hkey (register.mint.store ⟨register.next, .literal '\'', Tier.quotation '\'' (ofText content)⟩)
    have hleft : k ++ (ofText front ++ key :: q ++ ofText tail) = k ++ ofText front ++ [key] ++ (q ++ ofText tail) := by
      simp
    refine ⟨after, ofText front ++ key :: q, .literal front content _ hfront hcontent hunquoted, ?_, ?_⟩
    · rwa [hleft]
    · have htext : k ++ (ofText (front ++ '\'' :: (content ++ '\'' :: rest)) ++ ofText tail) =
          k ++ ofText front ++ Tier.quotation '\'' (ofText content) ++ (ofText rest ++ ofText tail) := by
        simp [ofText, Tier.quotation]
      rw [htext, Tier.rewrite_quotation (by simpa [ofText] using hcontent) hpasses, hleft]
      exact hq

end Literals

end Passage

end FilterQuery
