import FilterQuery.Proofs.Passage.Seam
/-!
# Tiers that are done

A tier is exhausted on a list if it has nothing left to lift. `Tier.Exhausted` says so
without a search: of two delimiters the closing one never follows the opening one, and no
clause is a good one. Stated like this, it lasts: what a later tier lifts leaves a key,
which is no delimiter and stands alone in its clause (`Tier.Exhausted.replace`).

`Passage.exhausted_rewrite` says that a run leaves all tiers exhausted. Empty parentheses
are the exception, which the tier of groups passes over: a run that starts without them
ends without them.
-/

namespace FilterQuery

open Passage

/-! ## Lists with one more sign -/

section Lists
variable {α : Type} {word l r : List α} {a : α}

/-- A word without separators stands on one side of a sign between separators, or is the
sign. -/
theorem infix_between {P : α → Prop} (hl : ∀ b ∈ l.getLast?, P b) (hr : ∀ b ∈ r.head?, P b)
    (hno : ∀ b ∈ word, ¬ P b) (h : word <:+: l ++ a :: r) : word <:+: l ∨ word <:+: r ∨ word = [a] := by
  rcases List.infix_append_iff_ne_nil.1 h with h | h | ⟨front, rest, hne, -, rfl, ⟨k, rfl⟩, -⟩
  · exact .inl h
  · rcases List.infix_cons_iff.1 h with hprefix | h
    · rcases word with _ | ⟨b, _ | ⟨c, word⟩⟩
      · exact .inl List.nil_infix
      · obtain ⟨rfl, -⟩ := List.cons_prefix_cons.1 hprefix
        exact .inr (.inr rfl)
      · obtain ⟨-, rest, rfl⟩ := List.cons_prefix_cons.1 hprefix
        exact absurd (hr c (by simp)) (hno c (by simp))
    · exact .inr (.inl h)
  · -- the word would end in front of the sign with a separator
    rcases List.eq_nil_or_concat front with rfl | ⟨front, b, rfl⟩
    · exact absurd rfl hne
    · exact absurd (hl b (by simp)) (hno b (by simp))

theorem sublist_of_not_mem (ha : a ∉ word) (h : word.Sublist (l ++ a :: r)) : word.Sublist (l ++ r) := by
  obtain ⟨front, rest, rfl, hfront, hrest⟩ := List.sublist_append_iff.1 h
  refine hfront.append ?_
  cases hrest with
  | cons _ h => exact h
  | cons_cons => simp at ha

end Lists

namespace Tier

section Views
variable {α : Type} {view : α → Option Char}

/-- The tier has nothing left to lift. -/
def Exhausted (view : α → Option Char) : Tier → List α → Prop
  | literal quote, l => ¬ [some quote, some quote].Sublist (l.map view)
  | group, l => ¬ [some '(', some ')'].Sublist (l.map view)
  | tier, l => ∀ clause, clause <:+: l → (∀ a ∈ clause, tier.separates (view a) = false) →
      tier.accepts (clause.map view) = false

/-- No parentheses stand side by side. -/
def Filled (view : α → Option Char) (l : List α) : Prop := ¬ [some '(', some ')'] <:+: l.map view

variable {l : List α}

theorem sublist_of_enclosed? {opening closing : Char} {k part after : List α}
    (h : enclosed? view opening closing (part ++ after) = some (part, after)) :
    [some opening, some closing].Sublist ((k ++ part ++ after).map view) := by
  obtain ⟨-, a, inner, b, rfl, ha, hb, -⟩ := append_of_enclosed? h
  have hends : [some opening, some closing].Sublist ((a :: inner ++ [b]).map view) := by
    simp [ha, hb]
  refine hends.trans ?_
  simp only [List.map_append]
  exact (List.sublist_append_right _ _).trans (List.sublist_append_left _ _)

/-- Where a closing delimiter follows an opening one, there is an enclosed part. -/
theorem exists_enclosed?_of_sublist {opening closing : Char} (h : [some opening, some closing].Sublist (l.map view)) :
    ∃ k rest cut, l = k ++ rest ∧ enclosed? view opening closing rest = some cut := by
  induction l with
  | nil => cases h
  | cons a l ih =>
    by_cases hl : [some opening, some closing].Sublist (l.map view)
    · obtain ⟨k, rest, cut, rfl, hcut⟩ := ih hl
      exact ⟨a :: k, rest, cut, rfl, hcut⟩
    · -- the sign in front is the last opening one, so that the next delimiter closes
      rw [List.map_cons, List.sublist_cons_iff] at h
      obtain ⟨_, hword, hrest⟩ := h.resolve_left hl
      obtain ⟨ha, rfl⟩ := List.cons.inj hword
      have hclosing : some closing ∈ l.map view := List.singleton_sublist.1 hrest
      have hsplit := List.takeWhile_append_dropWhile (p := isInside view opening closing) (l := l)
      cases hd : l.dropWhile (isInside view opening closing) with
      | nil =>
        obtain ⟨c, hm, hc⟩ := List.mem_map.1 hclosing
        have hinside := List.dropWhile_eq_nil_iff.1 hd c hm
        simp [isInside, hc] at hinside
      | cons b after =>
        have hb : view b = some opening ∨ view b = some closing := by
          have hnot := List.head?_dropWhile_not (isInside view opening closing) l
          rw [hd] at hnot
          by_contra hno
          simp_all [isInside]
        have hb' : view b = some closing := by
          rcases hb with hopening | hb
          · by_contra hne
            -- an opening delimiter in front of the closing one was ruled out
            have hafter : some closing ∈ after.map view := by
              rw [← hsplit, hd, List.map_append, List.mem_append, List.map_cons, List.mem_cons] at hclosing
              rcases hclosing with hinside | hb | hafter
              · obtain ⟨c, hm, hc⟩ := List.mem_map.1 hinside
                simpa [isInside, hc] using List.mem_takeWhile_imp hm
              · exact absurd hb.symm hne
              · exact hafter
            apply hl
            rw [← hsplit, hd, List.map_append, List.map_cons, hopening]
            exact ((List.singleton_sublist.2 hafter).cons_cons _).trans (List.sublist_append_right _ _)
          · exact hb
        exact ⟨[], a :: l, (a :: l.takeWhile (isInside view opening closing) ++ [b], after), rfl,
          by simp [enclosed?, hd, ha.symm, hb']⟩

/-- A tier that finds nothing is exhausted, if it does not find nothing for the reason that
parentheses are empty. -/
theorem exhausted_of_search? {tier : Tier} (h : tier.search? view l = none) (hfilled : tier = .group → Filled view l) :
    tier.Exhausted view l := by
  have hnone : ∀ k rest, l = k ++ rest → tier.front? view rest = none := by
    rintro k rest rfl
    exact front?_eq_none_of_search? h
  have segment : (∀ l : List α, tier.front? view l = segment? view tier.separates tier.accepts l) →
      ∀ clause, clause <:+: l → (∀ a ∈ clause, tier.separates (view a) = false) →
        tier.accepts (clause.map view) = false := by
    rintro hfront clause ⟨k, rest, hl⟩ hclause
    by_contra haccepts
    have hsegment := hnone k (clause ++ rest) (by rw [← hl, List.append_assoc])
    have hclause' : ∀ a ∈ clause, (! tier.separates (view a)) = true := fun a ha => by simp [hclause a ha]
    rw [hfront, segment?, List.takeWhile_append_of_pos hclause', List.map_append,
      if_pos (accepts_mono List.infix_append_left (eq_true_of_ne_false haccepts))] at hsegment
    cases hsegment
  cases tier with
  | literal quote =>
    intro hsub
    obtain ⟨k, rest, cut, rfl, hcut⟩ := exists_enclosed?_of_sublist hsub
    have hfront := hnone k rest rfl
    rw [front?, hcut] at hfront
    cases hfront
  | group =>
    intro hsub
    obtain ⟨k, rest, ⟨part, after⟩, rfl, hcut⟩ := exists_enclosed?_of_sublist hsub
    have hfront := hnone k rest rfl
    obtain ⟨rfl, a, inner, b, rfl, ha, hb, -⟩ := append_of_enclosed? hcut
    rw [front?, hcut, Option.filter_some] at hfront
    cases inner with
    | nil => exact hfilled rfl ⟨k.map view, after.map view, by simp [ha, hb]⟩
    | cons c inner => simp at hfront
  | comparison symbol => exact segment fun _ => rfl
  | conjunction => exact segment fun _ => rfl

theorem Exhausted.search?_eq_none {tier : Tier} (h : tier.Exhausted view l) : tier.search? view l = none := by
  cases hs : tier.search? view l with
  | none => rfl
  | some cut =>
    obtain ⟨rfl, hf⟩ := append_of_search? hs
    have segment : segment? view tier.separates tier.accepts (cut.part ++ cut.after) = some (cut.part, cut.after) →
        cut.part <:+: cut.before ++ cut.part ++ cut.after ∧
          (∀ a ∈ cut.part, tier.separates (view a) = false) ∧ tier.accepts (cut.part.map view) = true := by
      intro hf
      obtain ⟨-, haccepts, hpart, -⟩ := append_of_segment? hf
      exact ⟨⟨cut.before, cut.after, rfl⟩, hpart, haccepts⟩
    cases tier with
    | literal quote => exact absurd (sublist_of_enclosed? hf) h
    | group => exact absurd (sublist_of_enclosed? (Option.filter_eq_some_iff.1 hf).1) h
    | comparison symbol =>
      obtain ⟨hwithin, hpart, haccepts⟩ := segment hf
      rw [h _ hwithin hpart] at haccepts
      cases haccepts
    | conjunction =>
      obtain ⟨hwithin, hpart, haccepts⟩ := segment hf
      rw [h _ hwithin hpart] at haccepts
      cases haccepts

end Views

/-- A separator of a later tier is one of an earlier tier, if both lift clauses. -/
theorem all_pairwise_separates : all.Pairwise fun a b => a.liftsClauses = true →
    b.liftsClauses = true ∧ ∀ sign, b.separates sign = true → a.separates sign = true := by
  simp +contextual [all, liftsClauses, separates]

variable {tier other : Tier} {p : Passage} {cut : Cut Piece}

theorem Filled.replace (h : Filled Piece.view (cut.before ++ cut.part ++ cut.after)) (lifted : Lifted) :
    Filled Piece.view (cut.replace lifted) := by
  intro hwithin
  rw [map_view_replace] at hwithin
  apply h
  rw [List.map_append, List.map_append]
  rcases infix_append_cons (by simp) hwithin with hbefore | hafter
  · exact hbefore.trans ⟨[], cut.part.map Piece.view ++ cut.after.map Piece.view, by simp⟩
  · exact hafter.trans (List.suffix_append _ _).isInfix

/-- What a later tier lifts leaves nothing to lift for a tier that was done. -/
theorem Exhausted.replace (h : tier.Exhausted Piece.view p) (hs : other.search? Piece.view p = some cut)
    (hlater : tier.liftsClauses = true →
      other.liftsClauses = true ∧ ∀ sign, other.separates sign = true → tier.separates sign = true)
    (lifted : Lifted) : tier.Exhausted Piece.view (cut.replace lifted) := by
  obtain ⟨hp, -⟩ := append_of_search? hs
  have delimiters : ∀ opening closing : Char, ¬ [some opening, some closing].Sublist (p.map Piece.view) →
      ¬ [some opening, some closing].Sublist ((cut.replace lifted).map Piece.view) := by
    intro opening closing hno hsub
    rw [map_view_replace] at hsub
    apply hno
    rw [hp, List.map_append, List.map_append, List.append_assoc]
    exact (sublist_of_not_mem (by simp) hsub).trans ((List.sublist_append_right _ _).append_left _)
  have clauses : tier.liftsClauses = true → (∀ clause, clause <:+: p → (∀ a ∈ clause, tier.separates a.view = false) →
      tier.accepts (clause.map Piece.view) = false) → ∀ clause, clause <:+: cut.replace lifted →
      (∀ a ∈ clause, tier.separates a.view = false) → tier.accepts (clause.map Piece.view) = false := by
    intro ht h clause hwithin hclause
    obtain ⟨hother, hseparates⟩ := hlater ht
    have hbefore : ∀ a ∈ cut.before.getLast?, tier.separates a.view = true :=
      fun a ha => hseparates _ (separates_before hother hs a ha)
    have hafter : ∀ a ∈ cut.after.head?, tier.separates a.view = true :=
      fun a ha => hseparates _ (separates_after hother hs a ha)
    have hno : ∀ a ∈ clause, ¬ tier.separates a.view = true := fun a ha => by simp [hclause a ha]
    rcases infix_between hbefore hafter hno hwithin with hl | hr | rfl
    · exact h clause (hl.trans ⟨[], cut.part ++ cut.after, by simp [hp]⟩) hclause
    · exact h clause (hr.trans ⟨cut.before ++ cut.part, [], by simp [hp]⟩) hclause
    · exact accepts_none tier
  cases tier with
  | literal quote => exact delimiters quote quote h
  | group => exact delimiters '(' ')' h
  | comparison symbol => exact clauses rfl h
  | conjunction => exact clauses rfl h

end Tier

namespace Passage

variable {tiers : List Tier} {register : Register} {p : Passage}

/-- A run leaves all tiers exhausted: each is when its turn is over, and what later tiers lift
does not change that. -/
theorem exhausted_rewrite (filled : Prop) (passed : List Tier) (hall : passed ++ tiers = Tier.all)
    (hfilled : filled → Tier.Filled Piece.view p)
    (hpassed : ∀ tier ∈ passed, (tier = .group → filled) → tier.Exhausted Piece.view p) :
    ∀ tier ∈ Tier.all, (tier = .group → filled) → tier.Exhausted Piece.view (rewrite tiers register p).1 := by
  have later : ∀ {passed tiers : List Tier} {tier other : Tier}, passed ++ other :: tiers = Tier.all → tier ∈ passed →
      tier.liftsClauses = true →
        other.liftsClauses = true ∧ ∀ sign, other.separates sign = true → tier.separates sign = true := by
    intro passed tiers tier other hall hm
    have hpairwise := Tier.all_pairwise_separates
    rw [← hall] at hpairwise
    exact (List.pairwise_append.1 hpairwise).2.2 tier hm other List.mem_cons_self
  induction tiers, register, p using rewrite_induction generalizing passed with
  | done register p =>
    rw [rewrite_nil]
    rwa [← hall, List.append_nil]
  | pass tier tiers register p h ih =>
    rw [rewrite_pass h]
    refine @ih (passed ++ [tier]) (by simpa using hall) hfilled fun other hm hother => ?_
    rcases List.mem_append.1 hm with hm | hm
    · exact hpassed other hm hother
    · obtain rfl := List.mem_singleton.1 hm
      exact Tier.exhausted_of_search? h fun hgroup => hfilled (hother hgroup)
  | lift tier tiers register p cut h hg ih =>
    rw [rewrite_lift h hg]
    obtain ⟨hp, -⟩ := Tier.append_of_search? h
    refine ih passed hall (fun hf => Tier.Filled.replace (hp ▸ hfilled hf) _) fun other hm hother => ?_
    exact (hpassed other hm hother).replace h (later hall hm) _
  | group tiers register p cut h _ ih =>
    rw [rewrite_group h]
    obtain ⟨hp, -⟩ := Tier.append_of_search? h
    refine ih passed hall (fun hf => Tier.Filled.replace (hp ▸ hfilled hf) _) fun other hm hother => ?_
    exact (hpassed other hm hother).replace h (later hall hm) _

/-- Whatever it starts from, a run of all tiers leaves no conjunction. -/
theorem not_mem_rewrite (register : Register) (p : Passage) : .char '&' ∉ (rewrite Tier.all register p).1 := by
  intro hm
  have hconjunction : Tier.conjunction.Exhausted Piece.view (rewrite Tier.all register p).1 :=
    exhausted_rewrite False [] rfl False.elim (by simp) _ (by simp [Tier.all]) (by simp)
  obtain ⟨u, v, hsplit⟩ := List.append_of_mem hm
  have hnone : Tier.conjunction.accepts ([.char '&'].map Piece.view) = false :=
    hconjunction [.char '&'] ⟨u, v, by simp [hsplit]⟩ (by simp [Tier.separates, Piece.view])
  cases hnone

end Passage

end FilterQuery
