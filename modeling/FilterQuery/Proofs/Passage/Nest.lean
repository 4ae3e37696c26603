import FilterQuery.Proofs.Passage.Sweep
/-!
# Groups from the inside out

The tier of groups comes to the group that is closed first. In front of it no
parenthesis is closed, so that what the groups of a passage are turned into does not
depend on how many are open around it. `Closes` states this, and `Closes.enclose` takes
it from the content of a group to the group.
-/

namespace FilterQuery

open Passage

namespace Passage

/-- In any context in front that closes no parenthesis, and whatever comes behind, the
tier of groups turns the passage into one without groups of which `R` holds. -/
def Closes (q : Passage) (R : Passage → Prop) : Prop :=
  ∀ register, ∃ (after : Register) (q' : Passage), R q' ∧ .char '(' ∉ q' ∧ .char ')' ∉ q' ∧
    ∀ tiers k l, .char ')' ∉ k →
      rewrite (.group :: tiers) register (k ++ q ++ l) = rewrite (.group :: tiers) after (k ++ q' ++ l)

/-- A content in parentheses. -/
def parenthesized (content : Passage) : Passage := .char '(' :: content ++ [.char ')']

/-- The next parenthesis behind an open context is an opening one. -/
theorem exists_dropWhile_isInside {k : Passage} (hk : .char ')' ∉ k) (l : Passage) :
    ∃ rest, (k ++ .char '(' :: l).dropWhile (isInside Piece.view '(' ')') = .char '(' :: rest := by
  induction k with
  | nil => exact ⟨l, List.dropWhile_cons_of_neg (by simp [isInside, Piece.view])⟩
  | cons a k ih =>
    cases ha : isInside Piece.view '(' ')' a with
    | true =>
      obtain ⟨rest, hrest⟩ := ih (List.not_mem_of_not_mem_cons hk)
      exact ⟨rest, by rw [List.cons_append, List.dropWhile_cons_of_pos ha, hrest]⟩
    | false =>
      have hopen : a = .char '(' := by
        cases a with
        | key => cases ha
        | char c =>
          by_cases hc : c = '('
          · rw [hc]
          · have hclose : c = ')' := by simpa [isInside, Piece.view, hc] using ha
            subst hclose
            simp at hk
      subst hopen
      exact ⟨_, List.dropWhile_cons_of_neg (by simp [ha])⟩

/-- Behind an open context, the next group without inner groups is lifted out. -/
theorem search?_group {k content : Passage} (hk : .char ')' ∉ k) (hne : content ≠ []) (ho : .char '(' ∉ content)
    (hc : .char ')' ∉ content) (l : Passage) :
    Tier.group.search? Piece.view (k ++ parenthesized content ++ l) =
      some ⟨k, parenthesized content, l⟩ := by
  -- an opening parenthesis in front meets the one of the group before any closing one
  induction k with
  | nil =>
    have hinside : ∀ a ∈ content, isInside Piece.view '(' ')' a = true := by
      rintro (c | _) ha
      · have hopen : c ≠ '(' := fun h => ho (h ▸ ha)
        have hclose : c ≠ ')' := fun h => hc (h ▸ ha)
        simp [isInside, Piece.view, hopen, hclose]
      · rfl
    have hview : (Piece.char '(').view = some '(' ∧ (Piece.char ')').view = some ')' := ⟨rfl, rfl⟩
    have hlength : 2 < (parenthesized content).length := by
      have := List.length_pos_iff.2 hne
      simp only [parenthesized, List.cons_append, List.length_cons, List.length_append, List.length_nil]
      omega
    have hfront := enclosed?_append hview.1 hview.2 hinside l
    apply Tier.search?_of_front?
    rw [Tier.front?, List.nil_append, parenthesized, List.append_assoc, List.singleton_append, hfront]
    exact if_pos (decide_eq_true hlength)
  | cons a k ih =>
    have hfront : Tier.group.front? Piece.view (a :: (k ++ parenthesized content ++ l)) = none := by
      by_cases ha : a.view = some '('
      · obtain ⟨rest, hrest⟩ := exists_dropWhile_isInside (List.not_mem_of_not_mem_cons hk)
          (content ++ [.char ')'] ++ l)
        simp only [List.cons_append, List.append_assoc] at hrest
        simp only [Tier.front?, enclosed?, parenthesized, List.cons_append, List.append_assoc, hrest]
        simp [Piece.view]
      · rw [Tier.front?, enclosed?_cons_eq_none ha]
        rfl
    rw [List.cons_append, List.cons_append, Tier.search?_cons, hfront, ih (List.not_mem_of_not_mem_cons hk)]
    rfl

variable {q q₁ q₂ : Passage} {R R₁ R₂ : Passage → Prop}

theorem Closes.imp {S : Passage → Prop} (h : q.Closes R) (hRS : ∀ q', R q' → S q') : q.Closes S := by
  intro register
  obtain ⟨after, q', hR, hq'⟩ := h register
  exact ⟨after, q', hRS q' hR, hq'⟩

theorem closes_of_not_mem (ho : .char '(' ∉ q) (hc : .char ')' ∉ q) : q.Closes (· = q) :=
  fun register => ⟨register, q, rfl, ho, hc, fun _ _ _ _ => rfl⟩

theorem Closes.append (h₁ : q₁.Closes R₁) (h₂ : q₂.Closes R₂) :
    (q₁ ++ q₂).Closes fun q => ∃ q₁' q₂', R₁ q₁' ∧ R₂ q₂' ∧ q = q₁' ++ q₂' := by
  intro register
  obtain ⟨between, q₁', hR₁, ho₁, hc₁, hq₁⟩ := h₁ register
  obtain ⟨after, q₂', hR₂, ho₂, hc₂, hq₂⟩ := h₂ between
  refine ⟨after, q₁' ++ q₂', ⟨q₁', q₂', hR₁, hR₂, rfl⟩, by simp [ho₁, ho₂], by simp [hc₁, hc₂], ?_⟩
  intro tiers k l hk
  have h₁ := hq₁ tiers k (q₂ ++ l) hk
  have h₂ := hq₂ tiers (k ++ q₁') l (by simp [hk, hc₁])
  simp only [List.append_assoc] at h₁ h₂ ⊢
  rw [h₁, h₂]

theorem Closes.append_char {c : Char} (hc : c ∉ ['(', ')']) (h₁ : q₁.Closes R₁) (h₂ : q₂.Closes R₂) :
    (q₁ ++ .char c :: q₂).Closes fun q => ∃ q₁' q₂', R₁ q₁' ∧ R₂ q₂' ∧ q = q₁' ++ .char c :: q₂' := by
  have hchar : Closes [.char c] (· = [.char c]) := by
    refine closes_of_not_mem ?_ ?_ <;> (intro hm; obtain rfl := Piece.char.inj (List.mem_singleton.1 hm); simp at hc)
  apply (h₁.append (hchar.append h₂)).imp
  rintro q ⟨q₁', _, hR₁, ⟨_, q₂', rfl, hR₂, rfl⟩, rfl⟩
  exact ⟨q₁', q₂', hR₁, hR₂, rfl⟩

/-- Once the groups in the content of a group are closed, the group itself is: its key
stands for what all tiers make of the content. -/
theorem Closes.enclose (h : q.Closes R) (hne : ∀ q', R q' → q' ≠ []) :
    (parenthesized q).Closes fun q' => ∃ number register content, R content ∧
      q' = [.key number .group (rewrite Tier.all register content).1.dropBlanks] := by
  intro register
  obtain ⟨between, inner, hR, ho, hc, hq⟩ := h register
  have hinterior : interior (parenthesized inner) = inner := by simp [interior, parenthesized]
  have hcontent : content between (parenthesized inner) = rewrite Tier.all between.mint inner := by
    rw [content, hinterior]
  refine ⟨(content between (parenthesized inner)).2.store (liftGroup between (parenthesized inner)),
    [(liftGroup between (parenthesized inner)).piece], ⟨between.next, between.mint, inner, hR, ?_⟩,
    by simp [Lifted.piece], by simp [Lifted.piece], fun tiers k l hk => ?_⟩
  · rw [liftGroup, hcontent, Lifted.piece]
  · -- the parenthesis that opens the group belongs to what stands in front of its content
    have hopen := hq tiers (k ++ [.char '(']) (.char ')' :: l) (by simp [hk])
    have hlift : rewrite (.group :: tiers) between (k ++ parenthesized inner ++ l) = _ :=
      rewrite_group (search?_group hk (hne inner hR) ho hc l)
    simp only [parenthesized, Cut.replace, List.append_assoc, List.cons_append, List.nil_append] at hopen hlift ⊢
    rw [hopen, hlift]

end Passage

end FilterQuery
