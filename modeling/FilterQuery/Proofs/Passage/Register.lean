import FilterQuery.Proofs.Passage.Rewrite
/-!
# What rewriting notes down

Every key that rewriting leaves in a passage is the key of a noted lift, and what a
lift stands for holds keys of older lifts only. No number is taken twice.
`Passage.rewrite_sound` is the invariant over a run of the tiers, and
`Passage.tokenize_sound` what it says of a tokenized input.
-/

namespace FilterQuery

namespace Passage

/-- Every key in the passage is the key of one of the lifts. -/
def Within (lifts : List Lifted) (p : Passage) : Prop :=
  ∀ lifted : Lifted, lifted.piece ∈ p → lifted ∈ lifts

/-- Every lift, newest first, stands for a passage with keys of older lifts. -/
def Layered : List Lifted → Prop
  | [] => True
  | lifted :: older => Within older lifted.value ∧ Layered older

theorem Within.mono {lifts more : List Lifted} {p q : Passage} (h : Within lifts p) (hl : lifts ⊆ more)
    (hq : q ⊆ p) : Within more q :=
  fun lifted hm => hl (h lifted (hq hm))

theorem Within.append {lifts : List Lifted} {p q : Passage} (hp : Within lifts p) (hq : Within lifts q) :
    Within lifts (p ++ q) := by
  intro lifted hm
  rcases List.mem_append.1 hm with hm | hm
  · exact hp lifted hm
  · exact hq lifted hm

theorem within_ofText (lifts : List Lifted) (text : Text) : Within lifts (ofText text) := by
  intro lifted hm
  obtain ⟨c, -, hc⟩ := List.mem_map.1 hm
  cases hc

theorem interior_subset (p : Passage) : interior p ⊆ p :=
  fun _ hm => List.mem_of_mem_tail (List.mem_of_mem_dropLast hm)

theorem dropBlanks_subset (p : Passage) : p.dropBlanks ⊆ p :=
  fun _ hm => (List.mem_filter.1 hm).1

theorem keep_subset (tier : Tier) (p : Passage) : tier.keep p ⊆ p := by
  cases tier with
  | literal quote => exact List.Subset.refl _
  | group => exact dropBlanks_subset p
  | comparison symbol => exact dropBlanks_subset p
  | conjunction => exact dropBlanks_subset p

theorem Lifted.piece_injective {l m : Lifted} (h : l.piece = m.piece) : l = m := by
  obtain ⟨_, _, _⟩ := l
  obtain ⟨_, _, _⟩ := m
  simpa [Lifted.piece] using h

/-- A part that is cut out leaves the key of its lift. -/
theorem Within.replace {lifts : List Lifted} {cut : Cut Piece} (lifted : Lifted)
    (h : Within lifts (cut.before ++ cut.part ++ cut.after)) :
    Within (lifted :: lifts) (cut.replace lifted) := by
  intro other hm
  rcases List.mem_append.1 hm with hm | hm
  · exact List.mem_cons_of_mem _ (h other (by simp [hm]))
  · rcases List.mem_cons.1 hm with hm | hm
    · exact Lifted.piece_injective hm ▸ List.mem_cons_self
    · exact List.mem_cons_of_mem _ (h other (by simp [hm]))

end Passage

namespace Register

open Passage (Within Layered)

/-- Lifts are layered, and their numbers are distinct and taken. -/
structure Sound (register : Register) : Prop where
  layered : Layered register.newestFirst
  nodup : (register.newestFirst.map (·.number)).Nodup
  le_minted : ∀ lifted ∈ register.newestFirst, lifted.number ≤ register.minted

/-- The later register has more lifts, under numbers that were free before. -/
structure Grows (before after : Register) : Prop where
  minted_le : before.minted ≤ after.minted
  more : ∃ lifts, after.newestFirst = lifts ++ before.newestFirst ∧
    ∀ lifted ∈ lifts, before.minted < lifted.number

theorem sound_new : new.Sound := ⟨trivial, List.nodup_nil, by simp [new]⟩

theorem Sound.mint {register : Register} (h : register.Sound) : register.mint.Sound :=
  ⟨h.layered, h.nodup, fun lifted hm => Nat.le_succ_of_le (h.le_minted lifted hm)⟩

theorem Sound.store {register : Register} (h : register.Sound) {lifted : Lifted}
    (hv : Within register.newestFirst lifted.value) (hle : lifted.number ≤ register.minted)
    (hn : ∀ other ∈ register.newestFirst, other.number ≠ lifted.number) :
    (register.store lifted).Sound where
  layered := ⟨hv, h.layered⟩
  nodup := by
    refine List.nodup_cons.2 ⟨?_, h.nodup⟩
    intro hm
    obtain ⟨other, ho, hnum⟩ := List.mem_map.1 hm
    exact hn other ho hnum
  le_minted := by
    intro other hm
    rcases List.mem_cons.1 hm with rfl | hm
    · exact hle
    · exact h.le_minted other hm

theorem Grows.refl (register : Register) : register.Grows register :=
  ⟨Nat.le_refl _, [], rfl, by simp⟩

theorem Grows.trans {a b c : Register} (hab : a.Grows b) (hbc : b.Grows c) : a.Grows c := by
  obtain ⟨l, hl, hln⟩ := hab.more
  obtain ⟨m, hm, hmn⟩ := hbc.more
  refine ⟨Nat.le_trans hab.minted_le hbc.minted_le, m ++ l, by rw [hm, hl, List.append_assoc], ?_⟩
  intro lifted h
  rcases List.mem_append.1 h with h | h
  · exact Nat.lt_of_le_of_lt hab.minted_le (hmn lifted h)
  · exact hln lifted h

theorem Grows.subset {a b : Register} (h : a.Grows b) : a.newestFirst ⊆ b.newestFirst := by
  obtain ⟨l, hl, -⟩ := h.more
  rw [hl]
  exact List.subset_append_right _ _

/-- What is minted now and stored later goes under a number that was free. -/
theorem Grows.store {a b : Register} (h : a.mint.Grows b) {lifted : Lifted} (hn : lifted.number = a.next) :
    a.Grows (b.store lifted) := by
  obtain ⟨l, hl, hln⟩ := h.more
  refine ⟨Nat.le_of_succ_le h.minted_le, lifted :: l, congrArg (lifted :: ·) hl, ?_⟩
  intro other hm
  rcases List.mem_cons.1 hm with rfl | hm
  · exact hn ▸ Nat.lt_succ_self _
  · exact Nat.lt_of_succ_lt (hln other hm)

/-- The number that was taken before a run is the number of none of its lifts. -/
theorem Sound.store_next {a b : Register} (ha : a.Sound) (hb : b.Sound) (h : a.mint.Grows b) {lifted : Lifted}
    (hn : lifted.number = a.next) (hv : Within b.newestFirst lifted.value) : (b.store lifted).Sound := by
  refine hb.store hv (hn ▸ h.minted_le) fun other ho => ?_
  obtain ⟨l, hl, hln⟩ := h.more
  rw [hn]
  rw [hl] at ho
  rcases List.mem_append.1 ho with ho | ho
  · exact Nat.ne_of_gt (hln other ho)
  · exact Nat.ne_of_lt (Nat.lt_succ_of_le (ha.le_minted other ho))

end Register

namespace Passage

/-- What every lift of a tier has, all that a run of the tiers notes down has. -/
theorem forall_lifts_rewrite {P : Lifted → Prop} {tiers : List Tier} (ht : tiers ⊆ Tier.all)
    (hlift : ∀ tier ∈ Tier.all, tier ≠ .group → ∀ (register : Register) (p : Passage) (cut : Cut Piece),
      tier.search? Piece.view p = some cut → P (lift tier register cut.part))
    (hgroup : ∀ register part, P (liftGroup register part)) {register : Register} {p : Passage}
    (hr : ∀ lifted ∈ register.newestFirst, P lifted) :
    ∀ lifted ∈ (rewrite tiers register p).2.newestFirst, P lifted := by
  induction tiers, register, p using rewrite_induction with
  | done register p =>
    rw [rewrite_nil]
    exact hr
  | pass tier tiers register p h ih =>
    rw [rewrite_pass h]
    exact ih (List.subset_of_cons_subset ht) hr
  | lift tier tiers register p cut h hg ih =>
    rw [rewrite_lift h hg]
    apply ih ht
    exact List.forall_mem_cons.2 ⟨hlift tier (ht List.mem_cons_self) hg register p cut h, hr⟩
  | group tiers register p cut h ihc ih =>
    rw [rewrite_group h]
    apply ih ht
    exact List.forall_mem_cons.2 ⟨hgroup register cut.part, ihc (List.Subset.refl _) hr⟩

/-- Rewriting keeps the register sound, and all keys those of noted lifts. -/
theorem rewrite_sound {tiers : List Tier} {register : Register} {p : Passage} (hr : register.Sound)
    (hp : Within register.newestFirst p) :
    (rewrite tiers register p).2.Sound ∧ register.Grows (rewrite tiers register p).2 ∧
      Within (rewrite tiers register p).2.newestFirst (rewrite tiers register p).1 := by
  induction tiers, register, p using rewrite_induction with
  | done register p =>
    rw [rewrite_nil]
    exact ⟨hr, .refl _, hp⟩
  | pass tier tiers register p h ih =>
    rw [rewrite_pass h]
    exact ih hr hp
  | lift tier tiers register p cut h hg ih =>
    rw [rewrite_lift h hg]
    have hcut := (Tier.append_of_search? h).1 ▸ hp
    have hv : Within register.mint.newestFirst (lift tier register cut.part).value :=
      hcut.mono (List.Subset.refl _) fun a ha => by simp [keep_subset tier _ ha]
    have hgrows := Register.Grows.refl register.mint
    obtain ⟨hs, hgr, hw⟩ := ih (hr.store_next hr.mint hgrows rfl hv) (hcut.replace _)
    exact ⟨hs, (hgrows.store rfl).trans hgr, hw⟩
  | group tiers register p cut h ihc ih =>
    -- the number of the group is taken before its content is rewritten, and noted down after it
    rw [rewrite_group h]
    have hcut := (Tier.append_of_search? h).1 ▸ hp
    obtain ⟨hcs, hcg, hcw⟩ := ihc hr.mint
      (hcut.mono (List.Subset.refl _) fun a ha => by simp [interior_subset _ ha])
    have hv : Within (content register cut.part).2.newestFirst (liftGroup register cut.part).value :=
      hcw.mono (List.Subset.refl _) (dropBlanks_subset _)
    have hafter := hcut.mono hcg.subset (List.Subset.refl _)
    obtain ⟨hs, hgr, hw⟩ := ih (hr.store_next hcs hcg rfl hv) (hafter.replace _)
    exact ⟨hs, (hcg.store rfl).trans hgr, hw⟩

theorem tokenize_sound (input : Text) :
    (tokenize input).2.Sound ∧ Within (tokenize input).2.newestFirst (tokenize input).1 := by
  have hw : Within Register.new.newestFirst (ofText input) := within_ofText _ input
  obtain ⟨hs, -, hw⟩ := rewrite_sound Register.sound_new hw
  exact ⟨hs, hw⟩

end Passage

end FilterQuery
