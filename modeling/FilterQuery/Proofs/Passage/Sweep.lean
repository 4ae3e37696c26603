import FilterQuery.Proofs.Passage.Rewrite
import Mathlib.Algebra.Group.Nat.Even
/-!
# Sweeping with a tier

A tier is done with the front of a passage before it comes to the rest. `Tier.Passes`
says that it takes nothing that begins in a passage, and `Tier.Turns` that it turns a
passage into another one, whatever it has passed before and whatever comes behind.
What a tier turns the parts of a passage into can so be put together to what it turns
the passage into.
-/

namespace FilterQuery

open Passage

namespace Tier

/-- The tier takes nothing that begins in the passage and ends in it or behind. -/
def Passes (tier : Tier) (k : Passage) : Prop :=
  ∀ l u a v, k = u ++ a :: v → tier.front? Piece.view (a :: (v ++ l)) = none

/-- What may stand behind a part that is looked at as a whole: anything for tiers of
delimited parts, the end or a separator for tiers of clauses. -/
def Bounds : Tier → Passage → Prop
  | literal _, _ => True
  | group, _ => True
  | tier, l => ∀ a ∈ l.head?, tier.separates a.view = true

/-- The tier takes nothing that begins in the passage if a bound stands behind it. -/
def Settles (tier : Tier) (k : Passage) : Prop :=
  ∀ l, tier.Bounds l → ∀ u a v, k = u ++ a :: v → tier.front? Piece.view (a :: (v ++ l)) = none

/-- The tier turns the passage into one of which `R` holds and which it is done with. -/
def Turns (tier : Tier) (q : Passage) (R : Passage → Prop) : Prop :=
  ∀ register, ∃ (after : Register) (q' : Passage), R q' ∧ tier.Settles q' ∧
    ∀ tiers k l, tier.Passes k → tier.Bounds l →
      rewrite (tier :: tiers) register (k ++ q ++ l) = rewrite (tier :: tiers) after (k ++ q' ++ l)

variable {tier : Tier} {k l q : Passage} {R : Passage → Prop}

theorem Passes.nil (tier : Tier) : tier.Passes [] := by
  intro l u a v h
  simp at h

theorem Passes.settles (h : tier.Passes k) : tier.Settles k := fun l _ => h l

/-- A place in two lists is a place in the one or in the other. -/
theorem append_eq_append_cons {α : Type} {k l u v : List α} {a : α} (h : k ++ l = u ++ a :: v) :
    (∃ w, k = u ++ a :: w ∧ v = w ++ l) ∨ ∃ w, u = k ++ w ∧ l = w ++ a :: v := by
  rcases List.append_eq_append_iff.1 h with ⟨w, hu, hl⟩ | ⟨w, hk, hv⟩
  · exact .inr ⟨w, hu, hl⟩
  · cases w with
    | nil => exact .inr ⟨[], by simpa using hk.symm, by simpa using hv.symm⟩
    | cons b w =>
      obtain ⟨rfl, htail⟩ := List.cons.inj hv
      exact .inl ⟨w, hk, htail⟩

theorem Passes.append_settles (hk : tier.Passes k) (hq : tier.Settles q) : tier.Settles (k ++ q) := by
  intro l hl u a v h
  rcases append_eq_append_cons h with ⟨w, hu, rfl⟩ | ⟨w, -, hq'⟩
  · rw [List.append_assoc]
    exact hk (q ++ l) u a w hu
  · exact hq l hl w a v hq'

theorem Passes.append (hk : tier.Passes k) (hl : tier.Passes l) : tier.Passes (k ++ l) := by
  intro m u a v h
  rcases append_eq_append_cons h with ⟨w, hu, rfl⟩ | ⟨w, -, hl'⟩
  · rw [List.append_assoc]
    exact hk (l ++ m) u a w hu
  · exact hl m w a v hl'

theorem bounds_nil (tier : Tier) : tier.Bounds [] := by
  cases tier <;> simp [Bounds]

/-- A tier that is done with the front of a passage goes on behind it. -/
theorem Passes.search?_append (h : tier.Passes k) (l : Passage) :
    tier.search? Piece.view (k ++ l) =
      (tier.search? Piece.view l).map fun cut => { cut with before := k ++ cut.before } :=
  search?_append_of_front?_eq_none (h l)

theorem Settles.search?_eq_none (h : tier.Settles k) : tier.search? Piece.view k = none := by
  have hk := search?_append_of_front?_eq_none (h [] (bounds_nil tier))
  rw [List.append_nil] at hk
  rw [hk]
  rfl

theorem Turns.imp {S : Passage → Prop} (h : tier.Turns q R) (hRS : ∀ q', R q' → S q') : tier.Turns q S := by
  intro register
  obtain ⟨after, q', hR, hs, hq⟩ := h register
  exact ⟨after, q', hRS q' hR, hs, hq⟩

theorem Settles.turns (h : tier.Settles q) : tier.Turns q (· = q) :=
  fun register => ⟨register, q, rfl, h, fun _ _ _ _ _ => rfl⟩

/-- A tier that turns a passage into another leaves that one to the next tiers. -/
theorem Turns.rewrite (h : tier.Turns q R) (tiers : List Tier) (register : Register) :
    ∃ after q', R q' ∧ Passage.rewrite (tier :: tiers) register q = Passage.rewrite tiers after q' := by
  obtain ⟨after, q', hR, hs, hq⟩ := h register
  have hall := hq tiers [] [] (Passes.nil tier) (bounds_nil tier)
  simp only [List.nil_append, List.append_nil] at hall
  exact ⟨after, q', hR, by rw [hall, rewrite_pass hs.search?_eq_none]⟩

theorem passes_group (h : .char '(' ∉ q) : group.Passes q := by
  rintro l u a v rfl
  have ha : a.view ≠ some '(' := view_ne_of_not_mem h (by simp)
  rw [front?, enclosed?_cons_eq_none ha]
  rfl

/-! ## Literals -/

section Literal
variable {quote : Char}

theorem passes_literal (h : .char quote ∉ q) : (literal quote).Passes q := by
  rintro l u a v rfl
  have ha : a.view ≠ some quote := view_ne_of_not_mem h (by simp)
  exact enclosed?_cons_eq_none ha _

theorem Settles.passes_literal (h : (literal quote).Settles q) : (literal quote).Passes q := fun l => h l trivial

/-- The literal of a quote and a content. -/
def quotation (quote : Char) (content : Passage) : Passage := .char quote :: content ++ [.char quote]

/-- The first literal behind what a tier has passed is lifted out. -/
theorem rewrite_quotation {content : Passage} (hc : .char quote ∉ content) (hk : (literal quote).Passes k)
    (tiers : List Tier) (register : Register) (l : Passage) :
    rewrite (literal quote :: tiers) register (k ++ quotation quote content ++ l) =
      rewrite (literal quote :: tiers)
        (register.mint.store ⟨register.next, literal quote, quotation quote content⟩)
        (k ++ [.key register.next (literal quote) (quotation quote content)] ++ l) := by
  have hinside : ∀ a ∈ content, isInside Piece.view quote quote a = true := by
    rintro (c | _) ha
    · have hne : c ≠ quote := by
        rintro rfl
        exact hc ha
      simp [isInside, Piece.view, hne]
    · rfl
  have hfront : (literal quote).front? Piece.view (quotation quote content ++ l) =
      some (quotation quote content, l) := by
    have hview : (Piece.char quote).view = some quote := rfl
    simpa [front?, quotation] using enclosed?_append hview hview hinside l
  have hsearch : (literal quote).search? Piece.view (k ++ quotation quote content ++ l) =
      some ⟨k, quotation quote content, l⟩ := by
    rw [List.append_assoc, hk.search?_append, search?_of_front? hfront]
    simp
  rw [rewrite_lift hsearch (by simp)]
  simp [Cut.replace, lift, Lifted.piece, Tier.keep]

theorem turns_quotation {content : Passage} (hc : .char quote ∉ content) :
    (literal quote).Turns (quotation quote content)
      fun q' => ∃ number, q' = [.key number (literal quote) (quotation quote content)] := by
  intro register
  have hkey : (literal quote).Passes [.key register.next (literal quote) (quotation quote content)] :=
    passes_literal (by simp)
  exact ⟨_, _, ⟨_, rfl⟩, hkey.settles, fun tiers k l hk _ => rewrite_quotation hc hk tiers register l⟩

/-- What a tier of literals turns two passages into stands side by side. -/
theorem Turns.append_literal {q₁ q₂ : Passage} {R₁ R₂ : Passage → Prop} (h₁ : (literal quote).Turns q₁ R₁)
    (h₂ : (literal quote).Turns q₂ R₂) :
    (literal quote).Turns (q₁ ++ q₂) fun q' => ∃ q₁' q₂', R₁ q₁' ∧ R₂ q₂' ∧ q' = q₁' ++ q₂' := by
  intro register
  obtain ⟨between, q₁', hR₁, hs₁, hq₁⟩ := h₁ register
  obtain ⟨after, q₂', hR₂, hs₂, hq₂⟩ := h₂ between
  refine ⟨after, q₁' ++ q₂', ⟨q₁', q₂', hR₁, hR₂, rfl⟩, ?_, fun tiers k l hk _ => ?_⟩
  -- the first passage is turned before the second one, and then counts as passed
  · exact (hs₁.passes_literal.append hs₂.passes_literal).settles
  · have h₁ := hq₁ tiers k (q₂ ++ l) hk trivial
    have h₂ := hq₂ tiers (k ++ q₁') l (hk.append hs₁.passes_literal) trivial
    simp only [List.append_assoc] at h₁ h₂ ⊢
    rw [h₁, h₂]

/-- Quotes that come in pairs are all taken up by literals. -/
theorem exists_turns_of_even {text : Text} (h : Even (text.count quote)) :
    (literal quote).Turns (ofText text) fun _ => True := by
  -- the first two quotes make a literal, and what comes behind them is shorter
  induction hlen : text.length using Nat.strong_induction_on generalizing text with
  | _ length ih =>
    by_cases hq : quote ∈ text
    · obtain ⟨front, rest, rfl, hfront⟩ := List.eq_append_cons_of_mem hq
      have hodd : ¬ Even (rest.count quote) := by
        rw [List.count_append, List.count_cons_self, List.count_eq_zero.2 hfront, Nat.zero_add,
          Nat.even_add_one] at h
        exact h
      have hq' : quote ∈ rest := by
        by_contra hno
        rw [List.count_eq_zero.2 hno] at hodd
        exact hodd Even.zero
      obtain ⟨content, rest, rfl, hcontent⟩ := List.eq_append_cons_of_mem hq'
      have heven : Even (rest.count quote) := by
        rw [List.count_append, List.count_cons_self, List.count_eq_zero.2 hcontent, Nat.zero_add,
          Nat.even_add_one, not_not] at hodd
        exact hodd
      have hrest := ih rest.length (by simp only [List.length_append, List.length_cons] at hlen; omega)
        heven rfl
      have hno : Piece.char quote ∉ ofText front := by simpa [ofText] using hfront
      have hno' : Piece.char quote ∉ ofText content := by simpa [ofText] using hcontent
      have htext : ofText (front ++ quote :: (content ++ quote :: rest)) =
          ofText front ++ (quotation quote (ofText content) ++ ofText rest) := by
        simp [ofText, quotation]
      rw [htext]
      have hturns := (passes_literal hno).settles.turns.append_literal ((turns_quotation hno').append_literal hrest)
      exact hturns.imp fun _ _ => trivial
    · have hno : Piece.char quote ∉ ofText text := by simpa [ofText] using hq
      exact (passes_literal hno).settles.turns.imp fun _ _ => trivial

end Literal

end Tier

end FilterQuery
