import FilterQuery.Proofs.Passage.Sweep
import Mathlib.Data.List.Forall2
/-!
# Flat passages

On a passage without quotes and parentheses the tiers are a plain split: every clause
that some comparison is found in becomes one key, and then every alternative of two
clauses or more. `Passage.rewrite_flat` says so of any such passage, malformed ones
included.
-/

namespace FilterQuery

open Passage

/-! ## Tiers of operators -/

namespace Tier

/-- The tier lifts whole clauses. -/
def liftsClauses : Tier → Bool
  | literal _ => false
  | group => false
  | comparison _ => true
  | conjunction => true

section Clauses
variable {tier : Tier} (ht : tier.liftsClauses = true)
include ht

theorem front?_of_liftsClauses (l : Passage) :
    tier.front? Piece.view l = segment? Piece.view tier.separates tier.accepts l := by
  cases tier <;> first | rfl | cases ht

theorem bounds_iff (l : Passage) : tier.Bounds l ↔ ∀ a ∈ l.head?, tier.separates a.view = true := by
  cases tier <;> first | rfl | cases ht

theorem keep_eq_dropBlanks (p : Passage) : tier.keep p = p.dropBlanks := by
  cases tier <;> first | rfl | cases ht

theorem ne_group : tier ≠ .group := by
  rintro rfl
  cases ht

omit ht in
theorem accepts_nil (tier : Tier) : tier.accepts [] = false := by
  cases tier with
  | comparison symbol => cases symbol <;> rfl
  | _ => rfl

omit ht in
theorem accepts_none (tier : Tier) : tier.accepts [none] = false := by
  cases tier with
  | comparison symbol => cases symbol <;> rfl
  | _ => rfl

/-- In front of a bound a tier looks at a clause as a whole. -/
theorem front?_append {seg l : Passage} (hseg : ∀ a ∈ seg, tier.separates a.view = false)
    (hl : tier.Bounds l) :
    tier.front? Piece.view (seg ++ l) = if tier.accepts (seg.map Piece.view) then some (seg, l) else none := by
  have hseg' : ∀ a ∈ seg, (! tier.separates a.view) = true := fun a ha => by simp [hseg a ha]
  have hbound : l.takeWhile (fun a => ! tier.separates a.view) = [] ∧
      l.dropWhile (fun a => ! tier.separates a.view) = l := by
    cases l with
    | nil => exact ⟨rfl, rfl⟩
    | cons a l =>
      have ha := (bounds_iff ht _).1 hl a (by simp)
      exact ⟨List.takeWhile_cons_of_neg (by simp [ha]), List.dropWhile_cons_of_neg (by simp [ha])⟩
  rw [front?_of_liftsClauses ht, segment?, List.takeWhile_append_of_pos hseg',
    List.dropWhile_append_of_pos hseg', hbound.1, hbound.2, List.append_nil]

/-- A clause that is not lifted stays. -/
theorem settles_of_not_accepts {seg : Passage} (hseg : ∀ a ∈ seg, tier.separates a.view = false)
    (h : tier.accepts (seg.map Piece.view) = false) : tier.Settles seg := by
  rintro l hl u a v rfl
  have hsuffix : tier.accepts ((a :: v).map Piece.view) = false := by
    by_contra hne
    have hmono := accepts_mono (s := (a :: v).map Piece.view) (t := (u ++ a :: v).map Piece.view)
      ⟨u.map Piece.view, [], by simp⟩ (eq_true_of_ne_false hne)
    rw [h] at hmono
    cases hmono
  have hfront := front?_append ht (fun b hb => hseg b (List.mem_append_right u hb)) hl
  rwa [hsuffix, if_neg Bool.false_ne_true] at hfront

/-- What is settled is passed once a separator stands behind it. -/
theorem Settles.passes_append {q : Passage} (h : tier.Settles q) {a : Piece} (ha : tier.separates a.view = true) :
    tier.Passes (q ++ [a]) := by
  intro l u b v hq
  have hl : tier.Bounds (a :: l) := (bounds_iff ht _).2 fun b hb => by
    obtain rfl := Option.some.inj (Option.mem_def.1 hb)
    exact ha
  -- what begins at the separator is empty, and what begins before it ends at it
  rcases List.eq_nil_or_concat v with rfl | ⟨v, c, rfl⟩
  · obtain ⟨-, hab⟩ := List.append_inj' hq rfl
    obtain rfl := List.singleton_inj.1 hab
    have hseg : ∀ b ∈ ([] : Passage), tier.separates b.view = false := by simp
    have hfront := front?_append ht hseg hl
    rwa [List.nil_append, if_neg (by simp [accepts_nil])] at hfront
  · have hq' : q ++ [a] = (u ++ b :: v) ++ [c] := by simpa using hq
    obtain ⟨rfl, hac⟩ := List.append_inj' hq' rfl
    obtain rfl := List.singleton_inj.1 hac
    simpa using h (a :: l) hl u b v rfl

/-- What a tier turns one clause into. -/
theorem turns_clause {seg : Passage} (hseg : ∀ a ∈ seg, tier.separates a.view = false) :
    tier.Turns seg fun q =>
      if tier.accepts (seg.map Piece.view) then ∃ number, q = [.key number tier seg.dropBlanks] else q = seg := by
  cases hacc : tier.accepts (seg.map Piece.view) with
  | false =>
    refine (settles_of_not_accepts ht hseg hacc).turns.imp fun q hq => ?_
    simpa using hq
  | true =>
    intro register
    have hkey : tier.Settles [.key register.next tier seg.dropBlanks] := by
      refine settles_of_not_accepts ht (fun a ha => ?_) (accepts_none tier)
      obtain rfl := List.mem_singleton.1 ha
      cases tier <;> rfl
    refine ⟨register.mint.store (lift tier register seg), [.key register.next tier seg.dropBlanks],
      by simp, hkey, fun tiers k l hk hl => ?_⟩
    have hfront := front?_append ht hseg hl
    rw [if_pos hacc] at hfront
    have hsearch : tier.search? Piece.view (k ++ seg ++ l) = some ⟨k, seg, l⟩ := by
      rw [List.append_assoc, hk.search?_append, search?_of_front? hfront]
      simp
    rw [rewrite_lift hsearch (ne_group ht)]
    simp [Cut.replace, lift, Lifted.piece, keep_eq_dropBlanks ht]

/-- Two clauses are turned one by one. -/
theorem Turns.append_separator {q₁ q₂ : Passage} {R₁ R₂ : Passage → Prop} {a : Piece}
    (ha : tier.separates a.view = true) (h₁ : tier.Turns q₁ R₁) (h₂ : tier.Turns q₂ R₂) :
    tier.Turns (q₁ ++ a :: q₂) fun q => ∃ q₁' q₂', R₁ q₁' ∧ R₂ q₂' ∧ q = q₁' ++ a :: q₂' := by
  intro register
  obtain ⟨between, q₁', hR₁, hs₁, hq₁⟩ := h₁ register
  obtain ⟨after, q₂', hR₂, hs₂, hq₂⟩ := h₂ between
  have hpass := hs₁.passes_append ht ha
  have hbound : ∀ l : Passage, tier.Bounds (a :: l) := fun l => (bounds_iff ht _).2 fun b hb => by
    obtain rfl := Option.some.inj (Option.mem_def.1 hb)
    exact ha
  refine ⟨after, q₁' ++ a :: q₂', ⟨q₁', q₂', hR₁, hR₂, rfl⟩, ?_, fun tiers k l hk hl => ?_⟩
  · have hsettles := hpass.append_settles hs₂
    rwa [List.append_assoc, List.singleton_append] at hsettles
  · have h₁ := hq₁ tiers k (a :: (q₂ ++ l)) hk (hbound _)
    have h₂ := hq₂ tiers (k ++ (q₁' ++ [a])) l (hk.append hpass) hl
    simp only [List.append_assoc, List.cons_append, List.nil_append] at h₁ h₂ ⊢
    rw [h₁, h₂]

end Clauses

end Tier

/-! ## Joined passages -/

namespace Passage

/-- Passages one after the other with a character between them. -/
def join (c : Char) : List Passage → Passage
  | [] => []
  | [p] => p
  | p :: q :: ps => p ++ .char c :: join c (q :: ps)

theorem join_cons {c : Char} {ps : List Passage} (h : ps ≠ []) (p : Passage) :
    join c (p :: ps) = p ++ .char c :: join c ps := by
  obtain ⟨q, ps, rfl⟩ := List.exists_cons_of_ne_nil h
  rfl

theorem join_singleton (c : Char) (p : Passage) : join c [p] = p := rfl

theorem join_ne_nil {c : Char} {ps : List Passage} (hne : ps ≠ []) (h : ∀ p ∈ ps, p ≠ []) : join c ps ≠ [] := by
  rcases ps with _ | ⟨p, _ | ⟨q, ps⟩⟩
  · exact absurd rfl hne
  · exact h p List.mem_cons_self
  · simp [join]

theorem join_append (c : Char) (init : List Passage) (p q : Passage) :
    join c (init ++ [p]) ++ q = join c (init ++ [p ++ q]) := by
  induction init with
  | nil => rfl
  | cons r init ih =>
    rw [List.cons_append, List.cons_append, join_cons (by simp), join_cons (by simp), ← ih, List.append_assoc,
      List.cons_append]

theorem append_join (c : Char) (rest : List Passage) (p q : Passage) :
    q ++ join c (p :: rest) = join c ((q ++ p) :: rest) := by
  cases rest with
  | nil => rfl
  | cons r rest => rw [join_cons (List.cons_ne_nil _ _), join_cons (List.cons_ne_nil _ _), List.append_assoc]

theorem dropBlanks_join {c : Char} (hc : isBlank c = false) (ps : List Passage) :
    dropBlanks (join c ps) = join c (ps.map dropBlanks) := by
  induction ps with
  | nil => rfl
  | cons p ps ih =>
    cases ps with
    | nil => rfl
    | cons q ps =>
      have hsep : ∀ r : Passage, dropBlanks (.char c :: r) = .char c :: dropBlanks r := fun r => by
        simp [dropBlanks, Piece.isBlank, Piece.view, hc]
      have hmap : (q :: ps).map dropBlanks ≠ [] := by simp
      rw [List.map_cons, join_cons (List.cons_ne_nil q ps), join_cons hmap, dropBlanks_append, hsep, ih]

theorem mem_join {c : Char} {ps : List Passage} {a : Piece} (h : a ∈ join c ps) :
    a = .char c ∨ ∃ p ∈ ps, a ∈ p := by
  induction ps with
  | nil => cases h
  | cons p ps ih =>
    cases ps with
    | nil => exact .inr ⟨p, List.mem_cons_self, h⟩
    | cons q ps =>
      rcases List.mem_append.1 h with h | h
      · exact .inr ⟨p, List.mem_cons_self, h⟩
      · rcases List.mem_cons.1 h with h | h
        · exact .inl h
        · exact (ih h).imp_right fun ⟨r, hr, ha⟩ => ⟨r, List.mem_cons_of_mem _ hr, ha⟩

theorem mem_join_self_iff {c : Char} {ps : List Passage} (h : ∀ p ∈ ps, .char c ∉ p) :
    .char c ∈ join c ps ↔ 2 ≤ ps.length := by
  rcases ps with _ | ⟨p, _ | ⟨q, ps⟩⟩
  · simp [join]
  · simpa [join] using h p List.mem_cons_self
  · simp [join]

end Passage

namespace Tier

/-- What a tier turns joined clauses into is joined in the same way. -/
theorem Turns.join {tier : Tier} (ht : tier.liftsClauses = true) {c : Char}
    (hc : tier.separates (some c) = true) {ι : Type} {R : ι → Passage → Prop} {xs : List ι} {qs : List Passage}
    (h : List.Forall₂ (fun x q => tier.Turns q (R x)) xs qs) (hne : xs ≠ []) :
    tier.Turns (Passage.join c qs) fun q => ∃ qs', List.Forall₂ R xs qs' ∧ q = Passage.join c qs' := by
  induction h with
  | nil => exact absurd rfl hne
  | @cons x q xs qs hq hqs ih =>
    cases hqs with
    | nil => exact hq.imp fun q' hR => ⟨[q'], .cons hR .nil, rfl⟩
    | @cons x₂ q₂ xs qs hq₂ hqs =>
      have hrest := ih (by simp)
      apply (hq.append_separator ht (a := .char c) hc hrest).imp
      rintro q' ⟨q₁', _, hR, ⟨qs', hRs, rfl⟩, rfl⟩
      have hne' : qs' ≠ [] := by
        rintro rfl
        cases hRs
      exact ⟨q₁' :: qs', .cons hR hRs, (join_cons hne' q₁').symm⟩

end Tier

/-! ## The split -/

theorem exists_of_forall₂ {α β γ : Type} {P : α → γ → Prop} {f : γ → β} {xs : List α} {ys : List β}
    (h : List.Forall₂ (fun x y => ∃ z, P x z ∧ y = f z) xs ys) : ∃ zs, List.Forall₂ P xs zs ∧ ys = zs.map f := by
  induction h with
  | nil => exact ⟨[], .nil, rfl⟩
  | cons hxy _ ih =>
    obtain ⟨z, hz, rfl⟩ := hxy
    obtain ⟨zs, hzs, rfl⟩ := ih
    exact ⟨z :: zs, .cons hz hzs, rfl⟩

theorem exists_of_mem_forall₂ {α β : Type} {R : α → β → Prop} {xs : List α} {ys : List β} (h : List.Forall₂ R xs ys)
    {y : β} (hy : y ∈ ys) : ∃ x ∈ xs, R x y := by
  induction h with
  | nil => cases hy
  | @cons x y' xs ys hxy _ ih =>
    rcases List.mem_cons.1 hy with rfl | hy
    · exact ⟨x, List.mem_cons_self, hxy⟩
    · obtain ⟨x, hx, hxy⟩ := ih hy
      exact ⟨x, List.mem_cons_of_mem _ hx, hxy⟩

theorem exists_of_forall₂_singleton {α β : Type} {R : α → β → Prop} {x : α} {ys : List β}
    (h : List.Forall₂ R [x] ys) : ∃ y, ys = [y] ∧ R x y := by
  cases h with
  | @cons _ y _ _ hxy hrest =>
    cases hrest
    exact ⟨y, rfl, hxy⟩

theorem forall₂_trans {α β γ : Type} {R : α → β → Prop} {S : β → γ → Prop} {T : α → γ → Prop}
    (hT : ∀ a b c, R a b → S b c → T a c) {xs : List α} {ys : List β} {zs : List γ} (hR : List.Forall₂ R xs ys)
    (hS : List.Forall₂ S ys zs) : List.Forall₂ T xs zs := by
  induction hR generalizing zs with
  | nil =>
    cases hS
    exact .nil
  | cons hxy _ ih =>
    cases hS with
    | cons hyz hS => exact .cons (hT _ _ _ hxy hyz) (ih hS)

theorem map_eq_map_of_forall₂ {α β γ : Type} {f : α → γ} {g : β → γ} {xs : List α} {ys : List β}
    (h : List.Forall₂ (fun x y => f x = g y) xs ys) : xs.map f = ys.map g := by
  induction h with
  | nil => rfl
  | cons hxy _ ih => rw [List.map_cons, List.map_cons, hxy, ih]

/-- The tiers of comparisons, in their order. -/
def Tier.comparisons : List Tier :=
  [.comparison .greaterEqual, .comparison .greater, .comparison .lessEqual, .comparison .less,
    .comparison .notEqual, .comparison .equal, .comparison .regexInsensitive, .comparison .regex]

/-- The tiers that come after those of literals. -/
def Tier.structural : List Tier := .group :: (Tier.comparisons ++ [.conjunction])

theorem Tier.all_eq : Tier.all = .literal '\'' :: .literal '"' :: Tier.structural := rfl

theorem Tier.structural_subset : Tier.structural ⊆ Tier.all :=
  fun _ hm => List.mem_cons_of_mem _ (List.mem_cons_of_mem _ hm)

namespace Passage

/-- No quote, parenthesis or connective stands in the passage. -/
def Plain (p : Passage) : Prop := ∀ c ∈ ['\'', '"', '(', ')', '&', '|'], .char c ∉ p

/-- Alternatives of clauses, written out. -/
def ofAlternatives (segss : List (List Passage)) : Passage := join '|' (segss.map (join '&'))

/-- What tiers of comparisons leave of a clause: the key of one that accepts it. -/
def ClauseLifted (tiers : List Tier) (seg q : Passage) : Prop :=
  if tiers.any (·.accepts (seg.map Piece.view)) then ∃ number, ∃ tier ∈ tiers, q = [.key number tier seg.dropBlanks]
  else q = seg

/-- What all tiers leave of an alternative: the key of a conjunction, or a clause that
stands alone. -/
def AlternativeLifted (segs : List Passage) (q : Passage) : Prop :=
  ∃ qs, List.Forall₂ (ClauseLifted Tier.comparisons) segs qs ∧
    if 2 ≤ segs.length then ∃ number, q = [.key number .conjunction (join '&' qs).dropBlanks]
    else q = join '&' qs

theorem Plain.separates {p : Passage} (h : Plain p) (tier : Tier) :
    ∀ a ∈ p, tier.separates a.view = false := by
  intro a ha
  cases a with
  | key => cases tier <;> rfl
  | char c =>
    have hand : c ≠ '&' := fun hc => h '&' (by simp) (hc ▸ ha)
    have hor : c ≠ '|' := fun hc => h '|' (by simp) (hc ▸ ha)
    cases tier <;> simp [Tier.separates, Piece.view, hand, hor]

theorem ClauseLifted.plain {tiers : List Tier} {seg q : Passage} (h : ClauseLifted tiers seg q) (hseg : Plain seg) :
    Plain q := by
  unfold ClauseLifted at h
  split at h
  · obtain ⟨number, tier, -, rfl⟩ := h
    intro c _ hm
    simp at hm
  · exact h ▸ hseg

/-- One more tier of comparisons lifts a clause that it accepts and that is not lifted
yet. -/
theorem ClauseLifted.turns {done : List Tier} {tier : Tier} (ht : tier.liftsClauses = true) {seg q : Passage}
    (h : ClauseLifted done seg q) (hseg : Plain seg) :
    tier.Turns q (ClauseLifted (done ++ [tier]) seg) := by
  refine (Tier.turns_clause ht ((h.plain hseg).separates tier)).imp fun q' hq' => ?_
  unfold ClauseLifted at h ⊢
  rw [List.any_append, List.any_cons, List.any_nil, Bool.or_false]
  cases hdone : done.any (·.accepts (seg.map Piece.view)) with
  | true =>
    -- a key shows no character, so that no further tier accepts it
    rw [if_pos hdone] at h
    obtain ⟨number, other, hm, rfl⟩ := h
    rw [List.map_singleton, show (Piece.key number other seg.dropBlanks).view = none from rfl,
      Tier.accepts_none, if_neg Bool.false_ne_true] at hq'
    rw [Bool.true_or, if_pos rfl]
    exact ⟨number, other, List.mem_append_left _ hm, hq'⟩
  | false =>
    rw [hdone, if_neg Bool.false_ne_true] at h
    subst h
    rw [Bool.false_or]
    split at hq' <;> rename_i hacc
    · obtain ⟨number, rfl⟩ := hq'
      rw [if_pos hacc]
      exact ⟨number, tier, by simp, rfl⟩
    · rwa [if_neg hacc]

/-- A tier of comparisons lifts the clauses of all alternatives. -/
theorem turns_alternatives {segss : List (List Passage)} (hne : segss ≠ [])
    (hsegs : ∀ segs ∈ segss, segs ≠ [] ∧ ∀ seg ∈ segs, Plain seg) (symbol : Comparison) {done : List Tier}
    {qss : List (List Passage)} (h : List.Forall₂ (List.Forall₂ (ClauseLifted done)) segss qss) :
    (Tier.comparison symbol).Turns (ofAlternatives qss) fun q =>
      ∃ qss', List.Forall₂ (List.Forall₂ (ClauseLifted (done ++ [.comparison symbol]))) segss qss' ∧
        q = ofAlternatives qss' := by
  have halternative : ∀ segs qs, (segs ≠ [] ∧ ∀ seg ∈ segs, Plain seg) ∧ List.Forall₂ (ClauseLifted done) segs qs →
      (Tier.comparison symbol).Turns (join '&' qs) fun q =>
        ∃ qs', List.Forall₂ (ClauseLifted (done ++ [.comparison symbol])) segs qs' ∧ q = join '&' qs' := by
    rintro segs qs ⟨⟨hne, hplain⟩, hqs⟩
    have hclauses : List.Forall₂ (fun seg q =>
        (Tier.comparison symbol).Turns q (ClauseLifted (done ++ [.comparison symbol]) seg)) segs qs :=
      ((List.forall₂_and_left _ _).2 ⟨hplain, hqs⟩).imp fun seg q hq => hq.2.turns rfl hq.1
    exact Tier.Turns.join rfl rfl hclauses hne
  have halternatives : List.Forall₂ (fun segs q => (Tier.comparison symbol).Turns q fun q' =>
      ∃ qs', List.Forall₂ (ClauseLifted (done ++ [.comparison symbol])) segs qs' ∧ q' = join '&' qs')
      segss (qss.map (join '&')) :=
    List.forall₂_map_right_iff.2 (((List.forall₂_and_left _ _).2 ⟨hsegs, h⟩).imp halternative)
  apply (Tier.Turns.join rfl rfl halternatives hne).imp
  rintro q ⟨qs, hqs, rfl⟩
  obtain ⟨qss', hqss', rfl⟩ := exists_of_forall₂ hqs
  exact ⟨qss', hqss', rfl⟩

/-- The tiers of comparisons lift clauses one after the other. -/
theorem rewrite_comparisons {segss : List (List Passage)} (hne : segss ≠ [])
    (hsegs : ∀ segs ∈ segss, segs ≠ [] ∧ ∀ seg ∈ segs, Plain seg) {tiers : List Tier}
    (ht : ∀ tier ∈ tiers, ∃ symbol, tier = .comparison symbol) {done : List Tier} {qss : List (List Passage)}
    (hq : List.Forall₂ (List.Forall₂ (ClauseLifted done)) segss qss) (rest : List Tier) (register : Register) :
    ∃ after qss', List.Forall₂ (List.Forall₂ (ClauseLifted (done ++ tiers))) segss qss' ∧
      rewrite (tiers ++ rest) register (ofAlternatives qss) = rewrite rest after (ofAlternatives qss') := by
  -- along the tiers, with those that have had their turn in `done`
  induction tiers generalizing done qss register with
  | nil => exact ⟨register, qss, by rwa [List.append_nil], rfl⟩
  | cons tier tiers ih =>
    obtain ⟨symbol, rfl⟩ := ht tier List.mem_cons_self
    obtain ⟨between, _, ⟨qss₁, hqss₁, rfl⟩, hfirst⟩ :=
      (turns_alternatives hne hsegs symbol hq).rewrite (tiers ++ rest) register
    obtain ⟨after, qss₂, hqss₂, hrest⟩ := ih (fun tier hm => ht tier (List.mem_cons_of_mem _ hm)) hqss₁ between
    refine ⟨after, qss₂, ?_, hfirst.trans hrest⟩
    rwa [List.append_assoc, List.singleton_append] at hqss₂

/-- The tier of conjunctions lifts the alternatives of two clauses or more. -/
theorem turns_alternative {segs qs : List Passage} (hplain : ∀ seg ∈ segs, Plain seg)
    (h : List.Forall₂ (ClauseLifted Tier.comparisons) segs qs) :
    Tier.conjunction.Turns (join '&' qs) (AlternativeLifted segs) := by
  have hq : ∀ q ∈ qs, Plain q := by
    intro q hm
    obtain ⟨seg, hseg, hlifted⟩ := exists_of_mem_forall₂ h hm
    exact hlifted.plain (hplain seg hseg)
  have hsep : ∀ a ∈ join '&' qs, Tier.conjunction.separates a.view = false := by
    intro a ha
    rcases mem_join ha with rfl | ⟨q, hm, ha⟩
    · rfl
    · exact (hq q hm).separates .conjunction a ha
  have haccepts : Tier.conjunction.accepts ((join '&' qs).map Piece.view) = decide (2 ≤ segs.length) := by
    rw [h.length_eq, Bool.eq_iff_iff, Tier.accepts_conjunction_iff, mem_map_view_iff, decide_eq_true_iff]
    exact mem_join_self_iff fun q hm => hq q hm '&' (by simp)
  refine (Tier.turns_clause rfl hsep).imp fun q hq => ⟨qs, h, ?_⟩
  simpa [haccepts] using hq

theorem not_mem_ofAlternatives {segss : List (List Passage)} (hplain : ∀ segs ∈ segss, ∀ seg ∈ segs, Plain seg)
    {c : Char} (hc : c ∈ ['\'', '"', '(', ')']) : .char c ∉ ofAlternatives segss := by
  intro hm
  rcases mem_join hm with h | ⟨q, hq, hm⟩
  · obtain rfl := Piece.char.inj h
    simp at hc
  obtain ⟨segs, hsegs, rfl⟩ := List.mem_map.1 hq
  rcases mem_join hm with h | ⟨seg, hseg, hm⟩
  · obtain rfl := Piece.char.inj h
    simp at hc
  exact hplain segs hsegs seg hseg c (List.mem_append_left ['&', '|'] hc) hm

/-- A flat passage has no literals. -/
theorem rewrite_all_flat {segss : List (List Passage)} (hplain : ∀ segs ∈ segss, ∀ seg ∈ segs, Plain seg)
    (register : Register) :
    rewrite Tier.all register (ofAlternatives segss) = rewrite Tier.structural register (ofAlternatives segss) := by
  have hsingle := Tier.passes_literal (not_mem_ofAlternatives hplain (c := '\'') (by simp))
  have hdouble := Tier.passes_literal (not_mem_ofAlternatives hplain (c := '"') (by simp))
  rw [Tier.all_eq, rewrite_pass hsingle.settles.search?_eq_none, rewrite_pass hdouble.settles.search?_eq_none]

/-- All tiers split a flat passage: clauses with a comparison become keys, and then
alternatives with a conjunction do. -/
theorem rewrite_flat {segss : List (List Passage)} (hne : segss ≠ [])
    (hsegs : ∀ segs ∈ segss, segs ≠ [] ∧ ∀ seg ∈ segs, Plain seg) (register : Register) :
    ∃ after qs, List.Forall₂ AlternativeLifted segss qs ∧
      rewrite Tier.all register (ofAlternatives segss) = (join '|' qs, after) := by
  have hplain : ∀ segs ∈ segss, ∀ seg ∈ segs, Plain seg := fun segs hm => (hsegs segs hm).2
  have hgroup := Tier.passes_group (not_mem_ofAlternatives hplain (c := '(') (by simp))
  have hstart : List.Forall₂ (List.Forall₂ (ClauseLifted [])) segss segss :=
    List.forall₂_same.2 fun segs _ => List.forall₂_same.2 fun seg _ => rfl
  have hsymbols : ∀ tier ∈ Tier.comparisons, ∃ symbol, tier = .comparison symbol := by simp [Tier.comparisons]
  obtain ⟨between, qss, hqss, hcomparisons⟩ :=
    rewrite_comparisons hne hsegs hsymbols hstart [.conjunction] register
  have halternatives : List.Forall₂ (fun segs q => Tier.conjunction.Turns q (AlternativeLifted segs)) segss
      (qss.map (join '&')) := by
    refine List.forall₂_map_right_iff.2 (((List.forall₂_and_left _ _).2 ⟨hsegs, hqss⟩).imp ?_)
    exact fun segs qs h => turns_alternative h.1.2 h.2
  obtain ⟨after, _, ⟨qs, hqs, rfl⟩, hconjunction⟩ :=
    (Tier.Turns.join rfl (c := '|') rfl halternatives hne).rewrite [] between
  refine ⟨after, qs, hqs, ?_⟩
  rw [rewrite_all_flat hplain, Tier.structural, rewrite_pass hgroup.settles.search?_eq_none, hcomparisons,
    ofAlternatives, hconjunction, rewrite_nil]

/-- A clause alone that some tier of comparisons accepts is left as its key. -/
theorem AlternativeLifted.exists_clause {seg q : Passage} (h : AlternativeLifted [seg] q)
    (haccepts : Tier.comparisons.any (·.accepts (seg.map Piece.view)) = true) :
    ∃ number tier, tier.liftsClauses = true ∧ q = [.key number tier seg.dropBlanks] := by
  obtain ⟨qs, hqs, hq⟩ := h
  obtain ⟨r, rfl, hclause⟩ := exists_of_forall₂_singleton hqs
  rw [if_neg (by simp), join_singleton] at hq
  rw [ClauseLifted, if_pos haccepts] at hclause
  obtain ⟨number, tier, htier, rfl⟩ := hclause
  have hlifts : Tier.comparisons.all Tier.liftsClauses = true := rfl
  exact ⟨number, tier, List.all_eq_true.1 hlifts tier htier, hq⟩

/-- The tiers behind those of literals leave the key of a clause that stands alone. -/
theorem rewrite_structural_clause {seg : Passage} (hplain : Plain seg)
    (haccepts : Tier.comparisons.any (·.accepts (seg.map Piece.view)) = true) (register : Register) :
    ∃ after number tier, tier.liftsClauses = true ∧
      rewrite Tier.structural register seg = ([.key number tier seg.dropBlanks], after) := by
  have hsegs : ∀ segs ∈ [[seg]], segs ≠ [] ∧ ∀ seg ∈ segs, Plain seg := by simpa using hplain
  obtain ⟨after, qs, hqs, hflat⟩ := rewrite_flat (List.cons_ne_nil _ _) hsegs register
  obtain ⟨r, rfl, hr⟩ := exists_of_forall₂_singleton hqs
  obtain ⟨number, tier, htier, rfl⟩ := hr.exists_clause haccepts
  refine ⟨after, number, tier, htier, ?_⟩
  rw [rewrite_all_flat (fun segs hm => (hsegs segs hm).2)] at hflat
  exact hflat

end Passage

end FilterQuery
