import FilterQuery.Proofs.Passage.Flat
import FilterQuery.Proofs.Passage.Tally
import Mathlib.Data.List.Chain
/-!
# Seams

What a key stands for ends at the key. The key of a literal or a group is written out
with a quote or a parenthesis at both its ends. The key of a comparison or a conjunction
is not, but it takes the place of a whole clause, so that its neighbours are connectives.
`Passage.seamed_rewrite` is the invariant over a run of the tiers.

A word of key characters is therefore written in one go: where it stands in a passage
written out, its characters stand side by side, in the passage or in what a single lift
stands for. That is `Passage.infix_view_of_infix_expand`.
-/

namespace FilterQuery

namespace Piece

/-- The piece is the key of a clause. -/
def isClause : Piece → Bool
  | char _ => false
  | key _ tier _ => tier.liftsClauses

/-- The piece is a connective. -/
def isConnective (piece : Piece) : Bool := piece.view.any Tier.isConnective

theorem isClause_eq_false_of_isConnective {piece : Piece} (h : piece.isConnective = true) :
    piece.isClause = false := by
  cases piece with
  | char c => rfl
  | key => cases h

theorem eq_char_of_isConnective {piece : Piece} (h : piece.isConnective = true) :
    ∃ c, piece = .char c ∧ isKeyChar c = false ∧ FilterQuery.isBlank c = false := by
  cases piece with
  | char c =>
    have hc : c = '&' ∨ c = '|' := by simpa [isConnective, view, Tier.isConnective] using h
    refine ⟨c, rfl, ?_⟩
    rcases hc with rfl | rfl <;> exact ⟨rfl, rfl⟩
  | key => cases h

end Piece

/-! ## Where clauses are taken from -/

namespace Tier

theorem isConnective_of_separates {tier : Tier} {piece : Piece} (h : tier.separates piece.view = true) :
    piece.isConnective = true := by
  cases piece with
  | char c =>
    have hc : c = '&' ∨ c = '|' := by
      cases tier with
      | conjunction => exact .inr (by simpa [separates, Piece.view] using h)
      | _ => simpa [separates, Piece.view] using h
    simpa [Piece.isConnective, Piece.view, isConnective] using hc
  | key => cases tier <;> cases h

/-- The tiers that lift clauses come last. -/
theorem all_pairwise : all.Pairwise fun a b => a.liftsClauses = true → b.liftsClauses = true := by
  simp [all, liftsClauses]

section Clauses
variable {tier : Tier} (ht : tier.liftsClauses = true) {p : Passage} {cut : Cut Piece}
include ht

theorem separates_after (h : tier.search? Piece.view p = some cut) :
    ∀ a ∈ cut.after.head?, tier.separates a.view = true := by
  obtain ⟨-, hf⟩ := append_of_search? h
  rw [front?_of_liftsClauses ht] at hf
  exact (append_of_segment? hf).2.2.2

/-- A clause is taken from the separator in front of it on. -/
theorem separates_before (h : tier.search? Piece.view p = some cut) :
    ∀ a ∈ cut.before.getLast?, tier.separates a.view = true := by
  induction p generalizing cut with
  | nil => cases h
  | cons a p ih =>
    rw [search?_cons] at h
    split at h
    · obtain rfl := Option.some.inj h
      exact fun b hb => by cases hb
    · next hnone =>
      obtain ⟨cut, hc, rfl⟩ := Option.map_eq_some_iff.1 h
      cases hbefore : cut.before with
      | cons b before =>
        have hlast : (cut.cons a).before.getLast? = cut.before.getLast? := by simp [Cut.cons, hbefore]
        rw [hlast]
        exact ih hc
      | nil =>
        -- the tier would have taken a sign in front that is no separator as well
        by_contra hno
        have ha : tier.separates a.view = false := by simpa [Cut.cons, hbefore] using hno
        obtain ⟨hp, hf⟩ := append_of_search? hc
        rw [hbefore, List.nil_append] at hp
        rw [front?_of_liftsClauses ht] at hf
        obtain ⟨-, haccepts, hpart, hafter⟩ := append_of_segment? hf
        have hseg : ∀ b ∈ a :: cut.part, tier.separates b.view = false := by
          intro b hb
          rcases List.mem_cons.1 hb with rfl | hb
          · exact ha
          · exact hpart b hb
        have hmore : tier.accepts ((a :: cut.part).map Piece.view) = true :=
          accepts_mono (List.infix_cons (a := a.view) List.infix_rfl) haccepts
        have hfront := front?_append ht hseg ((bounds_iff ht _).2 hafter)
        rw [if_pos hmore, List.cons_append, ← hp, hnone] at hfront
        cases hfront

end Clauses

end Tier

/-! ## The invariant -/

namespace Passage

/-- The key of a clause stands beside connectives only. -/
def Seam (a b : Piece) : Prop :=
  (a.isClause = true → b.isConnective = true) ∧ (b.isClause = true → a.isConnective = true)

/-- All neighbours in the passage make a seam. -/
def Seamed (p : Passage) : Prop := p.IsChain Seam

/-- No clause has been lifted out of the passage yet. -/
def Unlifted (p : Passage) : Prop := ∀ piece ∈ p, piece.isClause = false

theorem seam_of_isClause_eq_false {a b : Piece} (ha : a.isClause = false) (hb : b.isClause = false) : Seam a b := by
  simp [Seam, ha, hb]

theorem Unlifted.seamed {p : Passage} (h : Unlifted p) : Seamed p := by
  induction p with
  | nil => exact .nil
  | cons a p ih =>
    refine List.isChain_cons.2 ⟨fun b hb => ?_, ih fun b hb => h b (List.mem_cons_of_mem _ hb)⟩
    exact seam_of_isClause_eq_false (h a List.mem_cons_self) (h b (List.mem_cons_of_mem _ (List.mem_of_head? hb)))

theorem Unlifted.mono {p q : Passage} (h : Unlifted p) (hq : q ⊆ p) : Unlifted q := fun piece hm => h piece (hq hm)

theorem unlifted_ofText (text : Text) : Unlifted (ofText text) := by
  intro piece hm
  obtain ⟨c, -, rfl⟩ := List.mem_map.1 hm
  rfl

/-- A blank stands beside no key of a clause, so that leaving it out tears no seam. -/
theorem Seamed.seam_dropBlanks {a : Piece} {p : Passage} (h : Seamed (a :: p)) :
    ∀ b ∈ p.dropBlanks.head?, Seam a b := by
  induction p generalizing a with
  | nil => exact fun b hb => by cases hb
  | cons c p ih =>
    obtain ⟨hac, hrest⟩ := List.isChain_cons.1 h
    cases hblank : c.isBlank with
    | false =>
      intro b hb
      exact hac b (by simpa [dropBlanks, hblank] using hb)
    | true =>
      intro b hb
      have hc : c.isConnective = false := by
        by_contra hne
        obtain ⟨_, rfl, -, hno⟩ := Piece.eq_char_of_isConnective (eq_true_of_ne_false hne)
        simp [Piece.isBlank, Piece.view, hno] at hblank
      have hcb : Seam c b := ih hrest b (by simpa [dropBlanks, hblank] using hb)
      have ha : a.isClause = false := by simpa [hc] using (hac c rfl).1
      have hb : b.isClause = false := by simpa [hc] using hcb.2
      exact seam_of_isClause_eq_false ha hb

theorem Seamed.dropBlanks {p : Passage} (h : Seamed p) : Seamed p.dropBlanks := by
  induction p with
  | nil => exact .nil
  | cons a p ih =>
    have hrest := ih (List.isChain_cons.1 h).2
    cases hblank : a.isBlank with
    | true =>
      have hdrop : Passage.dropBlanks (a :: p) = Passage.dropBlanks p := by simp [Passage.dropBlanks, hblank]
      rwa [hdrop]
    | false =>
      have hdrop : Passage.dropBlanks (a :: p) = a :: Passage.dropBlanks p := by simp [Passage.dropBlanks, hblank]
      rw [hdrop]
      exact List.isChain_cons.2 ⟨h.seam_dropBlanks, hrest⟩

end Passage

/-- The value of a lift is seamed, and a literal has its quotes. -/
structure Lifted.Sealed (lifted : Lifted) : Prop where
  seamed : Passage.Seamed lifted.value
  quoted : ∀ quote, lifted.tier = .literal quote →
    isKeyChar quote = false ∧ ∃ content, lifted.value = Tier.quotation quote content

/-- Apart from clauses, a key is written out between two characters that no key has. -/
theorem Lifted.Sealed.expand_piece {lifted : Lifted} (h : lifted.Sealed) (ht : lifted.tier.liftsClauses = false) :
    ∃ opening text closing, isKeyChar opening = false ∧ isKeyChar closing = false ∧
      lifted.piece.expand = opening :: text ++ [closing] ∧ text <:+: Passage.expand lifted.value := by
  obtain ⟨number, tier, value⟩ := lifted
  cases tier with
  | group => exact ⟨'(', Passage.expand value, ')', rfl, rfl, by simp [Lifted.piece, Tier.wrap], List.infix_rfl⟩
  | literal quote =>
    obtain ⟨hquote, content, rfl⟩ := h.quoted quote rfl
    have hcontent : content <:+: Tier.quotation quote content := ⟨[.char quote], [.char quote], rfl⟩
    refine ⟨quote, Passage.expand content, quote, hquote, hquote, ?_, Passage.infix_expand hcontent⟩
    simp [Lifted.piece, Tier.wrap, Tier.quotation]
  | comparison symbol => cases ht
  | conjunction => cases ht

namespace Passage

/-- The key of a lift is seamed in where it takes the place of a part. -/
theorem Seamed.replace {cut : Cut Piece} (h : Seamed (cut.before ++ cut.part ++ cut.after)) {lifted : Lifted}
    (hbefore : ∀ a ∈ cut.before.getLast?, Seam a lifted.piece)
    (hafter : ∀ a ∈ cut.after.head?, Seam lifted.piece a) : Seamed (cut.replace lifted) := by
  obtain ⟨hb, -, -⟩ := List.isChain_append.1 (List.isChain_append.1 h).1
  obtain ⟨-, ha, -⟩ := List.isChain_append.1 h
  refine List.isChain_append.2 ⟨hb, List.isChain_cons.2 ⟨hafter, ha⟩, fun a hm b hb => ?_⟩
  obtain rfl := Option.some.inj hb
  exact hbefore a hm

theorem Unlifted.replace {cut : Cut Piece} (h : Unlifted (cut.before ++ cut.part ++ cut.after)) {lifted : Lifted}
    (ht : lifted.tier.liftsClauses = false) : Unlifted (cut.replace lifted) := by
  intro piece hm
  rcases List.mem_append.1 hm with hm | hm
  · exact h piece (by simp [hm])
  · rcases List.mem_cons.1 hm with rfl | hm
    · exact ht
    · exact h piece (by simp [hm])


/-- What a tier lifts is sealed. -/
theorem sealed_lift {tier : Tier} (ht : tier ∈ Tier.all) (hg : tier ≠ .group) {p : Passage} {cut : Cut Piece}
    (h : tier.search? Piece.view p = some cut) (hp : Seamed p) (register : Register) :
    (lift tier register cut.part).Sealed := by
  obtain ⟨happend, hf⟩ := Tier.append_of_search? h
  rw [happend] at hp
  have hpart : Seamed cut.part := (List.isChain_append.1 (List.isChain_append.1 hp).1).2.1
  cases tier with
  | group => exact absurd rfl hg
  | literal quote =>
    refine ⟨hpart, fun other ho => ?_⟩
    obtain rfl : quote = other := Tier.literal.inj ho
    obtain ⟨-, a, inner, b, hab, ha, hb, -⟩ := append_of_enclosed? hf
    cases a with
    | key => cases ha
    | char c =>
      cases b with
      | key => cases hb
      | char d =>
        obtain rfl := Option.some.inj ha
        obtain rfl := Option.some.inj hb
        exact ⟨isKeyChar_quote ht, inner, hab⟩
  | comparison symbol => exact ⟨hpart.dropBlanks, fun _ ho => by cases ho⟩
  | conjunction => exact ⟨hpart.dropBlanks, fun _ ho => by cases ho⟩

/-- The key of a clause stands where the clause stood, between connectives. -/
theorem Seamed.replace_clause {tier : Tier} (ht : tier.liftsClauses = true) {p : Passage} {cut : Cut Piece}
    (h : tier.search? Piece.view p = some cut) (hp : Seamed p) (register : Register) :
    Seamed (cut.replace (lift tier register cut.part)) := by
  have hconnective : ∀ a : Piece, tier.separates a.view = true → Seam a (lift tier register cut.part).piece ∧
      Seam (lift tier register cut.part).piece a := by
    intro a ha
    have hc := Tier.isConnective_of_separates ha
    have hno := Piece.isClause_eq_false_of_isConnective hc
    simp [Seam, hc, hno]
  rw [(Tier.append_of_search? h).1] at hp
  apply hp.replace
  · exact fun a ha => (hconnective a (Tier.separates_before ht h a ha)).1
  · exact fun a ha => (hconnective a (Tier.separates_after ht h a ha)).2

/-- A run of the tiers, those of clauses last, leaves seamed passages only. -/
theorem seamed_rewrite {tiers : List Tier} (ht : tiers ⊆ Tier.all)
    (horder : tiers.Pairwise fun a b => a.liftsClauses = true → b.liftsClauses = true) {register : Register}
    {p : Passage} (hp : Seamed p) (hunlifted : (∃ tier ∈ tiers, tier.liftsClauses = false) → Unlifted p)
    (hr : ∀ lifted ∈ register.newestFirst, lifted.Sealed) :
    Seamed (rewrite tiers register p).1 ∧ ∀ lifted ∈ (rewrite tiers register p).2.newestFirst, lifted.Sealed := by
  induction tiers, register, p using rewrite_induction with
  | done register p =>
    rw [rewrite_nil]
    exact ⟨hp, hr⟩
  | pass tier tiers register p h ih =>
    rw [rewrite_pass h]
    refine ih (List.subset_of_cons_subset ht) (List.pairwise_cons.1 horder).2 hp ?_ hr
    rintro ⟨other, hm, hother⟩
    exact hunlifted ⟨other, List.mem_cons_of_mem _ hm, hother⟩
  | lift tier tiers register p cut h hg ih =>
    rw [rewrite_lift h hg]
    have hsealed := sealed_lift (ht List.mem_cons_self) hg h hp register
    have hr' : ∀ lifted ∈ (register.mint.store (lift tier register cut.part)).newestFirst, lifted.Sealed := by
      intro lifted hm
      rcases List.mem_cons.1 hm with rfl | hm
      · exact hsealed
      · exact hr lifted hm
    cases hclause : tier.liftsClauses with
    | true =>
      -- the tiers that are left all lift clauses
      refine ih ht horder (hp.replace_clause hclause h register) ?_ hr'
      rintro ⟨other, hm, hother⟩
      rcases List.mem_cons.1 hm with rfl | hm
      · rw [hclause] at hother
        cases hother
      · rw [(List.pairwise_cons.1 horder).1 other hm hclause] at hother
        cases hother
    | false =>
      have hno : Unlifted (cut.replace (lift tier register cut.part)) := by
        have hno := hunlifted ⟨tier, List.mem_cons_self, hclause⟩
        rw [(Tier.append_of_search? h).1] at hno
        exact hno.replace hclause
      exact ih ht horder hno.seamed (fun _ => hno) hr'
  | group tiers register p cut h ihc ih =>
    rw [rewrite_group h]
    have hno := hunlifted ⟨.group, List.mem_cons_self, rfl⟩
    rw [(Tier.append_of_search? h).1] at hno
    have hinterior : Unlifted (interior cut.part) :=
      hno.mono fun a ha => by simp [interior_subset _ ha]
    obtain ⟨hcontent, hregister⟩ := ihc (List.Subset.refl _) Tier.all_pairwise hinterior.seamed (fun _ => hinterior) hr
    have hreplace : Unlifted (cut.replace (liftGroup register cut.part)) := hno.replace rfl
    refine ih ht horder hreplace.seamed (fun _ => hreplace) ?_
    intro lifted hm
    rcases List.mem_cons.1 hm with rfl | hm
    · exact ⟨hcontent.dropBlanks, fun _ ho => by cases ho⟩
    · exact hregister lifted hm

theorem seamed_tokenize (input : Text) :
    Seamed (tokenize input).1 ∧ ∀ lifted ∈ (tokenize input).2.newestFirst, lifted.Sealed := by
  have hno := unlifted_ofText input
  exact seamed_rewrite (List.Subset.refl _) Tier.all_pairwise hno.seamed (fun _ => hno) (by simp [Register.new])

/-! ## Words of key characters -/

section Word
variable {lifts : List Lifted} (hsealed : ∀ lifted ∈ lifts, lifted.Sealed) {word : Text}
  (hword : ∀ c ∈ word, isKeyChar c = true)
include hsealed hword

/-- A word that a passage is written out with, and that begins with no key of a clause,
is made of the characters of the passage. -/
theorem eq_ofText_of_prefix_expand {p : Passage} (hw : Within lifts p) (hp : Seamed p)
    (hhead : ∀ a ∈ p.head?, a.isClause = false) (h : word <+: expand p) : ∃ rest, p = ofText word ++ rest := by
  induction word generalizing p with
  | nil => exact ⟨p, rfl⟩
  | cons d word ih =>
    rcases p with _ | ⟨c | ⟨number, tier, value⟩, p⟩
    · simp at h
    · rw [expand_cons, expand_char, List.singleton_append] at h
      obtain ⟨rfl, htail⟩ := List.cons_prefix_cons.1 h
      obtain ⟨hseam, hrest⟩ := List.isChain_cons.1 hp
      have hnext : ∀ a ∈ p.head?, a.isClause = false := by
        intro a ha
        by_contra hne
        obtain ⟨_, he, hno, -⟩ :=
          Piece.eq_char_of_isConnective ((hseam a ha).2 (eq_true_of_ne_false hne))
        obtain rfl := Piece.char.inj he
        rw [hword d List.mem_cons_self] at hno
        cases hno
      obtain ⟨rest, rfl⟩ := ih (fun c hc => hword c (List.mem_cons_of_mem _ hc))
        (hw.mono (List.Subset.refl _) (List.subset_cons_self _ _)) hrest hnext htail
      exact ⟨rest, rfl⟩
    · have hm := hw ⟨number, tier, value⟩ List.mem_cons_self
      obtain ⟨opening, text, closing, hopening, -, he, -⟩ := (hsealed _ hm).expand_piece (hhead _ rfl)
      rw [expand_cons, show Piece.expand (.key number tier value) = _ from he] at h
      obtain ⟨rfl, -⟩ := List.cons_prefix_cons.1 h
      rw [hword d List.mem_cons_self] at hopening
      cases hopening

/-- Where a word is written out, it stands in the passage or in what a single lift stands
for. -/
theorem infix_view_of_infix_expand (hne : word ≠ []) (hl : Layered lifts) {p : Passage} (hw : Within lifts p)
    (hp : Seamed p) (h : word <:+: expand p) :
    word.map some <:+: p.map Piece.view ∨ ∃ lifted ∈ lifts, word.map some <:+: lifted.value.map Piece.view := by
  have hno : ∀ c, isKeyChar c = false → c ∉ word := by
    intro c hc hm
    rw [hword c hm] at hc
    cases hc
  have hempty : ¬ word <:+: [] := by simpa using hne
  induction p using Passage.induction with
  | nil => exact absurd (by simpa using h) hempty
  | char c p ih =>
    have hw' : Within lifts p := hw.mono (List.Subset.refl _) (List.subset_cons_self _ _)
    rw [expand_cons, expand_char, List.singleton_append] at h
    rcases List.infix_cons_iff.1 h with hprefix | hwithin
    · have hprefix' : word <+: expand (.char c :: p) := by rwa [expand_cons, expand_char]
      obtain ⟨rest, hrest⟩ := eq_ofText_of_prefix_expand hsealed hword hw hp (by simp [Piece.isClause]) hprefix'
      exact .inl (map_some_prefix_iff.2 ⟨rest, hrest⟩).isInfix
    · exact (ih hw' (List.isChain_cons.1 hp).2 hwithin).imp_left fun hv => List.infix_cons hv
  | key number tier value p ihv ih =>
    have hm := hw ⟨number, tier, value⟩ List.mem_cons_self
    have hw' : Within lifts p := hw.mono (List.Subset.refl _) (List.subset_cons_self _ _)
    obtain ⟨hseam, hrest⟩ := List.isChain_cons.1 hp
    -- the word is written out with what the key stands for, or behind it
    have hside : word <:+: expand value ∨ word <:+: expand p := by
      cases ht : tier.liftsClauses with
      | false =>
        obtain ⟨opening, text, closing, hopening, hclosing, he, htext⟩ := (hsealed _ hm).expand_piece ht
        rw [expand_cons, show Piece.expand (.key number tier value) = _ from he, List.append_assoc,
          List.singleton_append] at h
        rcases infix_append_cons (hno closing hclosing) h with h | h
        · rcases infix_append_cons (l := []) (hno opening hopening) h with h | h
          · exact absurd h hempty
          · exact .inl (h.trans htext)
        · exact .inr h
      | true =>
        have hwrap : tier.wrap (expand value) = expand value := by
          cases tier <;> first | rfl | cases ht
        rw [expand_cons, expand_key, hwrap] at h
        cases p with
        | nil => exact .inl (by simpa using h)
        | cons a p =>
          obtain ⟨c, rfl, hc, -⟩ := Piece.eq_char_of_isConnective ((hseam a rfl).1 ht)
          rw [expand_cons, expand_char, List.singleton_append] at h ⊢
          exact (infix_append_cons (hno c hc) h).imp_right fun hp => List.infix_cons hp
    rcases hside with hside | hside
    · rcases ihv (hl.within hm) (hsealed _ hm).seamed hside with hv | hv
      · exact .inr ⟨_, hm, hv⟩
      · exact .inr hv
    · exact (ih hw' hrest hside).imp_left fun hv => List.infix_cons hv

end Word

/-- A key that is written out with a tokenized input stands there in characters, in the
skeleton or in what a single lift stands for. -/
theorem infix_view_tokenize {suffix : Text} (hs : Suffix.IsHex suffix) {input : Text} {n : Nat}
    (h : Minter.key suffix n <:+: expand (tokenize input).1) :
    (Minter.key suffix n).map some <:+: (tokenize input).1.map Piece.view ∨
      ∃ lifted ∈ (tokenize input).2.newestFirst,
        (Minter.key suffix n).map some <:+: lifted.value.map Piece.view := by
  obtain ⟨hp, hsealed⟩ := seamed_tokenize input
  obtain ⟨hr, hw⟩ := tokenize_sound input
  have hne : Minter.key suffix n ≠ [] := by simp [Minter.key]
  exact infix_view_of_infix_expand hsealed (fun c hc => isKeyChar_of_mem_key hs hc) hne hr.layered hw hp h

end Passage

end FilterQuery
