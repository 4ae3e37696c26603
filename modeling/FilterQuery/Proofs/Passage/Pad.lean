import FilterQuery.Proofs.Passage.Form
import FilterQuery.Proofs.Passage.Render
import FilterQuery.Proofs.Passage.Seam
/-!
# Blanks around passages

Blanks around a passage stay around what rewriting makes of it, unless a clause at the
end in question becomes a key, which takes them in. `Passage.rewrite_pad` says so of any
passage that neither begins nor ends with a sign of a comparison, malformed ones
included: beside such a sign a blank would pass for an operand.
-/

namespace FilterQuery

open Passage

/-! ## Rewriting and padding -/

/-- Padding commutes with the tier on passages of which `P` holds: the tier finds what it
finds without the padding, and `P` and the padding are kept by what it puts in its place. -/
structure Tier.Commutes (tier : Tier) (pad : Passage → Passage) (P : Passage → Prop) : Prop where
  none : ∀ p, P p → tier.search? Piece.view p = none → tier.search? Piece.view (pad p) = none
  some : ∀ p cut, P p → tier.search? Piece.view p = some cut →
    ∃ other, tier.search? Piece.view (pad p) = some other ∧ tier.keep other.part = tier.keep cut.part ∧
      (tier = .group → other.part = cut.part) ∧
      ∀ lifted, lifted.tier = tier → P (cut.replace lifted) ∧ pad (cut.replace lifted) = other.replace lifted

namespace Passage

/-- Padding that commutes with all tiers commutes with a run of them. -/
theorem rewrite_of_commutes {tiers : List Tier} {pad : Passage → Passage} {P : Passage → Prop}
    (h : ∀ tier ∈ tiers, tier.Commutes pad P) {p : Passage} (hp : P p) (register : Register) :
    rewrite tiers register (pad p) = (pad (rewrite tiers register p).1, (rewrite tiers register p).2) := by
  induction tiers, register, p using rewrite_induction with
  | done register p => rw [rewrite_nil, rewrite_nil]
  | pass tier tiers register p hs ih =>
    rw [rewrite_pass hs, rewrite_pass ((h tier List.mem_cons_self).none p hp hs)]
    exact ih (fun other hm => h other (List.mem_cons_of_mem _ hm)) hp
  | lift tier tiers register p cut hs hg ih =>
    obtain ⟨other, hother, hkeep, -, hreplace⟩ := (h tier List.mem_cons_self).some p cut hp hs
    have hlift : lift tier register other.part = lift tier register cut.part := by rw [lift, lift, hkeep]
    obtain ⟨hnext, hpad⟩ := hreplace (lift tier register cut.part) rfl
    rw [rewrite_lift hs hg, rewrite_lift hother hg, hlift, ← hpad]
    exact ih h hnext
  | group tiers register p cut hs _ ih =>
    obtain ⟨other, hother, -, hpart, hreplace⟩ := (h .group List.mem_cons_self).some p cut hp hs
    obtain ⟨hnext, hpad⟩ := hreplace (liftGroup register cut.part) rfl
    rw [rewrite_group hs, rewrite_group hother, hpart rfl, ← hpad]
    exact ih h hnext

end Passage

/-! ## Blanks and tiers -/

namespace Passage

/-- All pieces of the passage are blanks. -/
def Blank (p : Passage) : Prop := ∀ a ∈ p, a.isBlank = true

theorem Blank.not_mem {p : Passage} (h : Blank p) {c : Char} (hc : isBlank c = false) : .char c ∉ p :=
  fun hm => Bool.false_ne_true (hc.symm.trans (h _ hm))

theorem Blank.view_ne {p : Passage} (h : Blank p) {c : Char} (hc : isBlank c = false) {a : Piece} (ha : a ∈ p) :
    a.view ≠ some c := view_ne_of_not_mem (h.not_mem hc) ha

theorem Blank.separates {p : Passage} (h : Blank p) (tier : Tier) : ∀ a ∈ p, tier.separates a.view = false := by
  intro a ha
  have hand := h.view_ne (c := '&') rfl ha
  have hor := h.view_ne (c := '|') rfl ha
  cases tier <;> simp [Tier.separates, hand, hor]

theorem blank_ofText {text : Text} (h : ∀ c ∈ text, isBlank c = true) : Blank (ofText text) := by
  intro a ha
  obtain ⟨c, hc, rfl⟩ := List.mem_map.1 ha
  exact h c hc

/-- The passage does not begin with a sign of a comparison. -/
def Headed (p : Passage) : Prop := ∀ a ∈ p.head?, NoSymbol [a]

/-- The passage does not end with a sign of a comparison. -/
def Tailed (p : Passage) : Prop := ∀ a ∈ p.getLast?, NoSymbol [a]

theorem noSymbol_key (number : Nat) (tier : Tier) (value : Passage) : NoSymbol [.key number tier value] := by
  intro symbol c _ hm
  simp at hm

theorem Blank.noSymbol {p : Passage} (h : Blank p) : NoSymbol p :=
  fun symbol _ hc => h.not_mem (symbol.isBlank_of_mem_symbol _ hc)

end Passage

namespace Tier

variable {tier : Tier} {blanks seg : Passage}

theorem eq_char_of_view {a : Piece} {c : Char} (h : a.view = some c) : a = .char c := by
  cases a with
  | char d => rw [Option.some.inj h]
  | key => cases h

/-- Blanks in front of a clause are no operand of it. -/
theorem accepts_blanks_append (hb : Blank blanks) (hseg : Headed seg) :
    tier.accepts ((blanks ++ seg).map Piece.view) = tier.accepts (seg.map Piece.view) := by
  have hwithin : seg.map Piece.view <:+: (blanks ++ seg).map Piece.view := ((List.suffix_append _ _).map _).isInfix
  rw [Bool.eq_iff_iff]
  refine ⟨fun h => ?_, accepts_mono hwithin⟩
  cases tier with
  | literal quote => cases h
  | group => cases h
  | conjunction =>
    rw [accepts_conjunction_iff, mem_map_view_iff] at h ⊢
    exact (List.mem_append.1 h).resolve_left (hb.not_mem rfl)
  | comparison symbol =>
    obtain ⟨u, w, v, -, hv, h, hw⟩ := accepts_comparison_iff.1 h
    -- the symbol begins behind the blanks, and behind the first piece there
    obtain ⟨c, word, hword⟩ := List.exists_cons_of_ne_nil symbol.symbol_ne_nil
    have hc : c ∈ symbol.symbol := by simp [hword]
    obtain ⟨a, w, rfl, ha, -⟩ := List.map_eq_cons_iff.1 (by rwa [hword, List.map_cons] at hw)
    obtain rfl := eq_char_of_view ha
    rw [List.append_assoc, List.cons_append] at h
    rcases append_eq_append_cons h with ⟨x, hx, -⟩ | ⟨x, -, hx⟩
    · exact absurd (hx ▸ List.mem_append_right u List.mem_cons_self) (hb.not_mem (symbol.isBlank_of_mem_symbol c hc))
    · refine accepts_comparison_iff.2 ⟨x, .char c :: w, v, ?_, hv, by simp [hx], hw⟩
      rintro rfl
      exact hseg (.char c) (by simp [hx]) symbol c hc List.mem_cons_self

/-- Blanks behind a clause are no operand of it. -/
theorem accepts_append_blanks (hb : Blank blanks) (hseg : Tailed seg) :
    tier.accepts ((seg ++ blanks).map Piece.view) = tier.accepts (seg.map Piece.view) := by
  have hwithin : seg.map Piece.view <:+: (seg ++ blanks).map Piece.view := ((List.prefix_append _ _).map _).isInfix
  rw [Bool.eq_iff_iff]
  refine ⟨fun h => ?_, accepts_mono hwithin⟩
  cases tier with
  | literal quote => cases h
  | group => cases h
  | conjunction =>
    rw [accepts_conjunction_iff, mem_map_view_iff] at h ⊢
    exact (List.mem_append.1 h).resolve_right (hb.not_mem rfl)
  | comparison symbol =>
    obtain ⟨u, w, v, hu, -, h, hw⟩ := accepts_comparison_iff.1 h
    -- the symbol ends before the blanks, and before the last piece there
    obtain ⟨word, c, hword⟩ := (List.eq_nil_or_concat symbol.symbol).resolve_left symbol.symbol_ne_nil
    have hc : c ∈ symbol.symbol := by simp [hword]
    obtain ⟨w, b, rfl, -, hb'⟩ :=
      List.map_eq_append_iff.1 (by rwa [hword, List.concat_eq_append, List.map_append] at hw)
    obtain ⟨a, rfl, ha⟩ := List.map_eq_singleton_iff.1 hb'
    obtain rfl := eq_char_of_view ha
    rw [← List.append_assoc, List.append_assoc, List.singleton_append] at h
    rcases append_eq_append_cons h with ⟨x, hx, -⟩ | ⟨x, -, hx⟩
    · refine accepts_comparison_iff.2 ⟨u, w ++ [.char c], x, hu, ?_, by simp [hx], hw⟩
      rintro rfl
      exact hseg (.char c) (by simp [hx]) symbol c hc List.mem_cons_self
    · exact absurd (hx ▸ List.mem_append_right x List.mem_cons_self) (hb.not_mem (symbol.isBlank_of_mem_symbol c hc))

theorem eq_of_liftsClauses_eq_false (ht : tier.liftsClauses = false) :
    tier = .group ∨ ∃ quote, tier = .literal quote := by
  cases tier with
  | literal quote => exact .inr ⟨quote, rfl⟩
  | group => exact .inl rfl
  | comparison symbol => cases ht
  | conjunction => cases ht

/-- What is no clause is taken off with a character at both its ends. -/
theorem exists_ends_of_front? (ht : tier.liftsClauses = false) {p part after : Passage}
    (h : tier.front? Piece.view p = some (part, after)) :
    ∃ a inner b, part = a :: inner ++ [b] ∧ a.isClause = false ∧ b.isClause = false := by
  have hchar : ∀ {a : Piece} {c : Char}, a.view = some c → a.isClause = false := by
    rintro (c | _) d hview
    · rfl
    · cases hview
  rcases eq_of_liftsClauses_eq_false ht with rfl | ⟨quote, rfl⟩
  · obtain ⟨a, inner, b, hpart, ha, hb, -⟩ := eq_of_front?_group h
    exact ⟨a, inner, b, hpart, hchar ha, hchar hb⟩
  · obtain ⟨-, a, inner, b, hpart, ha, hb, -⟩ := append_of_enclosed? h
    exact ⟨a, inner, b, hpart, hchar ha, hchar hb⟩

/-! ## Blanks in front -/

theorem isBlank_quote {quote : Char} (ht : literal quote ∈ all) : isBlank quote = false := by
  have hquote : quote = '\'' ∨ quote = '"' := by simpa [all] using ht
  rcases hquote with rfl | rfl <;> rfl

theorem passes_blanks (ht : tier ∈ all) (hclauses : tier.liftsClauses = false) (hb : Blank blanks) :
    tier.Passes blanks := by
  rcases eq_of_liftsClauses_eq_false hclauses with rfl | ⟨quote, rfl⟩
  · exact passes_group (hb.not_mem rfl)
  · exact passes_literal (hb.not_mem (isBlank_quote ht))

/-- A clause at the front is taken with the blanks in front of it. -/
theorem front?_blanks_append (hclauses : tier.liftsClauses = true) (hb : Blank blanks) {p : Passage} (hp : Headed p) :
    tier.front? Piece.view (blanks ++ p) =
      (tier.front? Piece.view p).map fun (part, after) => (blanks ++ part, after) := by
  have hsep : ∀ a ∈ blanks, (! tier.separates a.view) = true := fun a ha => by simp [hb.separates tier a ha]
  have hseg : Headed (p.takeWhile fun a => ! tier.separates a.view) := by
    intro a ha
    cases p with
    | nil => cases ha
    | cons b p =>
      rw [List.takeWhile_cons] at ha
      split at ha
      · exact hp a ha
      · cases ha
  rw [front?_of_liftsClauses hclauses, front?_of_liftsClauses hclauses, segment?, segment?,
    List.takeWhile_append_of_pos hsep, List.dropWhile_append_of_pos hsep, accepts_blanks_append hb hseg]
  split <;> rfl

/-- Blanks in front of a passage are part of a clause that is taken off its front, and
stay in front of all else. -/
theorem search?_blanks_append (ht : tier ∈ all) (hb : Blank blanks) {p : Passage} (hp : Headed p) :
    tier.search? Piece.view (blanks ++ p) = (tier.search? Piece.view p).map fun cut =>
      if tier.liftsClauses ∧ cut.before = [] then ⟨[], blanks ++ cut.part, cut.after⟩
      else { cut with before := blanks ++ cut.before } := by
  cases hclauses : tier.liftsClauses with
  | false =>
    rw [(passes_blanks ht hclauses hb).search?_append]
    simp
  | true =>
    cases hfront : tier.front? Piece.view p with
    | some cut =>
      have hpad := front?_blanks_append hclauses hb hp
      rw [hfront] at hpad
      rw [search?_of_front? hpad, search?_of_front? hfront]
      simp
    | none =>
      -- nothing is taken from the blanks on, and nothing but what stands behind the front
      have hnone : ∀ u a v, blanks = u ++ a :: v → tier.front? Piece.view (a :: (v ++ p)) = none := by
        intro u a v he
        have hb' : Blank (a :: v) := fun b hm => hb b (he ▸ List.mem_append_right u hm)
        rw [← List.cons_append, front?_blanks_append hclauses hb' hp, hfront]
        rfl
      rw [search?_append_of_front?_eq_none hnone]
      cases hcut : tier.search? Piece.view p with
      | none => rfl
      | some cut =>
        have hbefore : cut.before ≠ [] := by
          intro hnil
          obtain ⟨hsplit, htaken⟩ := append_of_search? hcut
          rw [hnil, List.nil_append] at hsplit
          rw [← hsplit, hfront] at htaken
          cases htaken
        simp [hbefore]

/-! ## Blanks behind -/

theorem enclosed?_append_blanks {opening closing : Char}
    (hb : ∀ a ∈ blanks, isInside Piece.view opening closing a = true) (p : Passage) :
    enclosed? Piece.view opening closing (p ++ blanks) =
      (enclosed? Piece.view opening closing p).map fun (part, after) => (part, after ++ blanks) := by
  have hopening : ∀ a ∈ blanks, a.view ≠ some opening := by
    intro a ha hview
    have hinside := hb a ha
    simp [isInside, hview] at hinside
  cases p with
  | nil =>
    cases blanks with
    | nil => rfl
    | cons a blanks =>
      rw [List.nil_append, enclosed?_cons_eq_none (hopening a List.mem_cons_self)]
      rfl
  | cons a p =>
    rw [List.cons_append, enclosed?, enclosed?, List.dropWhile_append]
    cases hdrop : p.dropWhile (isInside Piece.view opening closing) with
    | nil =>
      rw [List.isEmpty_nil, if_pos rfl, List.dropWhile_eq_nil_iff.2 hb]
      rfl
    | cons b after =>
      have htake : (p ++ blanks).takeWhile (isInside Piece.view opening closing) =
          p.takeWhile (isInside Piece.view opening closing) := by
        have hp := List.takeWhile_append_dropWhile (p := isInside Piece.view opening closing) (l := p)
        have hlength : (p.takeWhile (isInside Piece.view opening closing)).length ≠ p.length := by
          intro hlength
          have hsum := congrArg List.length hp
          rw [List.length_append, hlength, hdrop, List.length_cons] at hsum
          omega
        rw [List.takeWhile_append, if_neg hlength]
      rw [List.isEmpty_cons, if_neg Bool.false_ne_true, htake]
      simp only [List.cons_append]
      split <;> simp

/-- A passage is a clause with a bound behind it. -/
theorem exists_segment (hclauses : tier.liftsClauses = true) (p : Passage) :
    ∃ seg rest, p = seg ++ rest ∧ (∀ a ∈ seg, tier.separates a.view = false) ∧ tier.Bounds rest := by
  refine ⟨p.takeWhile fun a => ! tier.separates a.view, p.dropWhile fun a => ! tier.separates a.view,
    List.takeWhile_append_dropWhile.symm, fun a ha => by simpa using List.mem_takeWhile_imp ha, ?_⟩
  refine (bounds_iff hclauses _).2 fun a ha => ?_
  have hhead := List.head?_dropWhile_not (p := fun a : Piece => ! tier.separates a.view) p
  rw [Option.mem_def.1 ha] at hhead
  simpa using hhead

/-- A clause at the end is taken with the blanks behind it. -/
theorem front?_append_blanks (ht : tier ∈ all) (hb : Blank blanks) {p : Passage} (hp : Tailed p) :
    tier.front? Piece.view (p ++ blanks) = (tier.front? Piece.view p).map fun (part, after) =>
      if tier.liftsClauses ∧ after = [] then (part ++ blanks, after) else (part, after ++ blanks) := by
  have hinside : ∀ {opening closing : Char}, isBlank opening = false → isBlank closing = false →
      ∀ a ∈ blanks, isInside Piece.view opening closing a = true := by
    intro opening closing ho hc a ha
    simp [isInside, hb.view_ne ho ha, hb.view_ne hc ha]
  cases hclauses : tier.liftsClauses with
  | false =>
    rcases eq_of_liftsClauses_eq_false hclauses with rfl | ⟨quote, rfl⟩
    · rw [front?, front?, enclosed?_append_blanks (hinside rfl rfl)]
      cases enclosed? Piece.view '(' ')' p with
      | none => rfl
      | some cut => by_cases h : 2 < cut.1.length <;> simp [Option.filter_some, h]
    · rw [front?, front?, enclosed?_append_blanks (hinside (isBlank_quote ht) (isBlank_quote ht))]
      simp
  | true =>
    obtain ⟨seg, rest, rfl, hseg, hbound⟩ := exists_segment hclauses p
    cases rest with
    | nil =>
      have hsegs : ∀ a ∈ seg ++ blanks, tier.separates a.view = false := by
        intro a ha
        exact (List.mem_append.1 ha).elim (hseg a) (hb.separates tier a)
      have hpadded := front?_append hclauses hsegs (bounds_nil tier)
      have halone := front?_append hclauses hseg (bounds_nil tier)
      rw [List.append_nil] at hpadded halone hp ⊢
      rw [hpadded, halone, accepts_append_blanks hb hp]
      split <;> simp
    | cons a rest =>
      have hpadded : tier.Bounds (a :: (rest ++ blanks)) :=
        (bounds_iff hclauses _).2 fun b hm => (bounds_iff hclauses (a :: rest)).1 hbound b hm
      rw [List.append_assoc, List.cons_append, front?_append hclauses hseg hpadded, front?_append hclauses hseg hbound]
      split <;> simp

theorem search?_blanks (ht : tier ∈ all) (hb : Blank blanks) : tier.search? Piece.view blanks = none := by
  have hp : Headed [] := by simp [Headed]
  have hsearch := search?_blanks_append ht hb hp
  rwa [List.append_nil] at hsearch

/-- Blanks behind a passage are part of a clause that ends it, and stay behind all else. -/
theorem search?_append_blanks (ht : tier ∈ all) (hb : Blank blanks) {p : Passage} (hp : Tailed p) :
    tier.search? Piece.view (p ++ blanks) = (tier.search? Piece.view p).map fun cut =>
      if tier.liftsClauses ∧ cut.after = [] then { cut with part := cut.part ++ blanks }
      else { cut with after := cut.after ++ blanks } := by
  induction p with
  | nil =>
    rw [List.nil_append, search?_blanks ht hb]
    rfl
  | cons a p ih =>
    have hrest : Tailed p := by
      intro b hb'
      have hne : p ≠ [] := by
        rintro rfl
        cases hb'
      exact hp b (by rwa [List.getLast?_cons_of_ne_nil hne])
    have hfront := front?_append_blanks ht hb hp
    rw [List.cons_append] at hfront ⊢
    rw [search?_cons, search?_cons, hfront, ih hrest]
    cases tier.front? Piece.view (a :: p) with
    | some cut =>
      simp only [Option.map_some]
      split <;> rfl
    | none =>
      cases tier.search? Piece.view p with
      | none => rfl
      | some cut =>
        simp only [Option.map_none, Option.map_some, Cut.cons]
        split <;> rfl

end Tier

/-! ## Padding -/

namespace Passage

/-- The passage with blanks in front, unless a clause begins it that has taken them in. -/
def padFront (blanks p : Passage) : Passage := if p.head?.any Piece.isClause then p else blanks ++ p

/-- The passage with blanks behind, unless a clause ends it that has taken them in. -/
def padBack (blanks p : Passage) : Passage := if p.getLast?.any Piece.isClause then p else p ++ blanks

section Replace
variable {p : Passage} {cut : Cut Piece} (h : p = cut.before ++ cut.part ++ cut.after) (lifted : Lifted)
include h

theorem any_head?_replace : (cut.replace lifted).head?.any Piece.isClause =
    if cut.before = [] then lifted.tier.liftsClauses else p.head?.any Piece.isClause := by
  cases hbefore : cut.before with
  | nil =>
    rw [Cut.replace, hbefore, if_pos rfl]
    rfl
  | cons a before =>
    rw [Cut.replace, h, hbefore, if_neg (List.cons_ne_nil _ _)]
    rfl

theorem any_getLast?_replace : (cut.replace lifted).getLast?.any Piece.isClause =
    if cut.after = [] then lifted.tier.liftsClauses else p.getLast?.any Piece.isClause := by
  cases hafter : cut.after with
  | nil =>
    rw [Cut.replace, hafter, if_pos rfl, List.getLast?_concat]
    rfl
  | cons a after =>
    rw [Cut.replace, h, hafter, if_neg (List.cons_ne_nil _ _), List.getLast?_append_of_ne_nil _ (List.cons_ne_nil _ _),
      List.getLast?_append_of_ne_nil _ (List.cons_ne_nil _ _), List.getLast?_cons_cons]

theorem Headed.replace (hp : Headed p) : Headed (cut.replace lifted) := by
  intro a ha
  cases hbefore : cut.before with
  | nil =>
    rw [Cut.replace, hbefore] at ha
    obtain rfl := Option.some.inj ha
    exact noSymbol_key _ _ _
  | cons b before =>
    rw [Cut.replace, hbefore] at ha
    exact hp a (by rw [h, hbefore]; exact ha)

theorem Tailed.replace (hp : Tailed p) : Tailed (cut.replace lifted) := by
  intro a ha
  cases hafter : cut.after with
  | nil =>
    rw [Cut.replace, hafter, List.getLast?_concat] at ha
    obtain rfl := Option.some.inj ha
    exact noSymbol_key _ _ _
  | cons b after =>
    rw [Cut.replace, hafter, List.getLast?_append_of_ne_nil _ (List.cons_ne_nil _ _), List.getLast?_cons_cons] at ha
    refine hp a ?_
    rwa [h, hafter, List.getLast?_append_of_ne_nil _ (List.cons_ne_nil _ _)]

end Replace

theorem Blank.dropBlanks_append {blanks : Passage} (hb : Blank blanks) (p : Passage) :
    (blanks ++ p).dropBlanks = p.dropBlanks := by
  rw [Passage.dropBlanks_append, dropBlanks_eq_nil hb, List.nil_append]

theorem Blank.append_dropBlanks {blanks : Passage} (hb : Blank blanks) (p : Passage) :
    (p ++ blanks).dropBlanks = p.dropBlanks := by
  rw [Passage.dropBlanks_append, dropBlanks_eq_nil hb, List.append_nil]

section Commutes
variable {tier : Tier} (ht : tier ∈ Tier.all) {blanks : Passage} (hb : Blank blanks)
include ht hb

theorem commutes_padFront : tier.Commutes (padFront blanks) Headed where
  none := by
    intro p hp hnone
    unfold padFront
    split
    · exact hnone
    · rw [Tier.search?_blanks_append ht hb hp, hnone]
      rfl
  some := by
    intro p cut hp hcut
    obtain ⟨hsplit, hfront⟩ := Tier.append_of_search? hcut
    have hnext : ∀ lifted, Headed (cut.replace lifted) := fun lifted => hp.replace hsplit lifted
    cases hclause : p.head?.any Piece.isClause with
    | true =>
      -- the key of a clause is lifted as part of a clause only
      have hbegin : cut.before = [] → tier.liftsClauses = true := by
        intro hbefore
        by_contra hno
        obtain ⟨a, inner, b, hpart, ha, -⟩ := Tier.exists_ends_of_front? (eq_false_of_ne_true hno) hfront
        rw [hsplit, hbefore, hpart] at hclause
        exact Bool.false_ne_true (ha.symm.trans hclause)
      have hsame : tier.search? Piece.view (padFront blanks p) = some cut := by rw [padFront, if_pos hclause, hcut]
      refine ⟨cut, hsame, rfl, fun _ => rfl, fun lifted htier => ⟨hnext lifted, ?_⟩⟩
      rw [padFront, any_head?_replace hsplit, htier, hclause, if_pos]
      split
      · next hbefore => exact hbegin hbefore
      · rfl
    | false =>
      have hpad := Tier.search?_blanks_append ht hb hp
      rw [hcut, Option.map_some] at hpad
      have hfound : padFront blanks p = blanks ++ p := if_neg (by simp [hclause])
      have hany : ∀ lifted : Lifted, lifted.tier = tier →
          ((cut.replace lifted).head?.any Piece.isClause = true ↔ tier.liftsClauses = true ∧ cut.before = []) := by
        intro lifted htier
        rw [any_head?_replace hsplit, htier, hclause]
        by_cases hbefore : cut.before = [] <;> simp [hbefore]
      rw [hfound]
      refine ⟨_, hpad, ?_, ?_, fun lifted htier => ⟨hnext lifted, ?_⟩⟩
      · split
        · next h => rw [Tier.keep_eq_dropBlanks h.1, Tier.keep_eq_dropBlanks h.1, hb.dropBlanks_append]
        · rfl
      · rintro rfl
        rfl
      · rw [padFront]
        split
        · next h =>
          rw [if_pos ((hany lifted htier).1 h), Cut.replace, ((hany lifted htier).1 h).2]
          rfl
        · next h =>
          rw [if_neg (mt (hany lifted htier).2 h), Cut.replace, Cut.replace, List.append_assoc]

theorem commutes_padBack : tier.Commutes (padBack blanks) Tailed where
  none := by
    intro p hp hnone
    unfold padBack
    split
    · exact hnone
    · rw [Tier.search?_append_blanks ht hb hp, hnone]
      rfl
  some := by
    intro p cut hp hcut
    obtain ⟨hsplit, hfront⟩ := Tier.append_of_search? hcut
    have hnext : ∀ lifted, Tailed (cut.replace lifted) := fun lifted => hp.replace hsplit lifted
    cases hclause : p.getLast?.any Piece.isClause with
    | true =>
      have hend : cut.after = [] → tier.liftsClauses = true := by
        intro hafter
        by_contra hno
        obtain ⟨a, inner, b, hpart, -, hb'⟩ := Tier.exists_ends_of_front? (eq_false_of_ne_true hno) hfront
        rw [hsplit, hafter, hpart, List.append_nil, ← List.append_assoc, List.getLast?_concat] at hclause
        exact Bool.false_ne_true (hb'.symm.trans hclause)
      have hsame : tier.search? Piece.view (padBack blanks p) = some cut := by rw [padBack, if_pos hclause, hcut]
      refine ⟨cut, hsame, rfl, fun _ => rfl, fun lifted htier => ⟨hnext lifted, ?_⟩⟩
      rw [padBack, any_getLast?_replace hsplit, htier, hclause, if_pos]
      split
      · next hafter => exact hend hafter
      · rfl
    | false =>
      have hpad := Tier.search?_append_blanks ht hb hp
      rw [hcut, Option.map_some] at hpad
      have hfound : padBack blanks p = p ++ blanks := if_neg (by simp [hclause])
      have hany : ∀ lifted : Lifted, lifted.tier = tier → ((cut.replace lifted).getLast?.any Piece.isClause = true ↔
          tier.liftsClauses = true ∧ cut.after = []) := by
        intro lifted htier
        rw [any_getLast?_replace hsplit, htier, hclause]
        by_cases hafter : cut.after = [] <;> simp [hafter]
      rw [hfound]
      refine ⟨_, hpad, ?_, ?_, fun lifted htier => ⟨hnext lifted, ?_⟩⟩
      · split
        · next h => rw [Tier.keep_eq_dropBlanks h.1, Tier.keep_eq_dropBlanks h.1, hb.append_dropBlanks]
        · rfl
      · rintro rfl
        rfl
      · rw [padBack]
        split
        · next h =>
          rw [if_pos ((hany lifted htier).1 h)]
          rfl
        · next h =>
          rw [if_neg (mt (hany lifted htier).2 h), Cut.replace, Cut.replace, List.append_assoc, List.cons_append]

end Commutes

/-- The passage with blanks around it, except where a clause at an end has taken them
in. -/
def pad (front back p : Passage) : Passage := padFront front (padBack back p)

theorem Headed.padBack {p blanks : Passage} (hp : Headed p) (hb : Blank blanks) : Headed (padBack blanks p) := by
  unfold Passage.padBack
  split
  · exact hp
  · cases p with
    | nil =>
      intro a ha symbol c hc hm
      exact hb.noSymbol symbol c hc (List.mem_singleton.1 hm ▸ List.mem_of_head? ha)
    | cons b p => exact hp

/-- Rewriting commutes with padding: the blanks stay around what is left, and the lifts
are the same. -/
theorem rewrite_pad {tiers : List Tier} (ht : tiers ⊆ Tier.all) {front back : Passage} (hfront : Blank front)
    (hback : Blank back) {p : Passage} (hhead : Headed p) (htail : Tailed p) (register : Register) :
    rewrite tiers register (pad front back p) =
      (pad front back (rewrite tiers register p).1, (rewrite tiers register p).2) := by
  have hfirst := rewrite_of_commutes (fun tier hm => commutes_padFront (ht hm) hfront) (hhead.padBack hback) register
  have hsecond := rewrite_of_commutes (fun tier hm => commutes_padBack (ht hm) hback) htail register
  rw [pad, hfirst, hsecond]
  rfl

theorem Unlifted.pad {p : Passage} (h : Unlifted p) {front back : Passage} (hback : Blank back) :
    pad front back p = front ++ p ++ back := by
  have hlast : ¬ p.getLast?.any Piece.isClause = true := by
    cases hp : p.getLast? with
    | none => simp
    | some a => simp [h a (List.mem_of_getLast? hp)]
  have hhead : ¬ (p ++ back).head?.any Piece.isClause = true := by
    cases hp : (p ++ back).head? with
    | none => simp
    | some a =>
      have hclause : a.isClause = false := by
        rcases List.mem_append.1 (List.mem_of_head? hp) with ha | ha
        · exact h a ha
        · cases a with
          | char c => rfl
          | key => cases hback _ ha
      simp [hclause]
  rw [Passage.pad, padBack, if_neg hlast, padFront, if_neg hhead, List.append_assoc]

/-- Blanks around a text stay around what it is taken apart to. -/
theorem tokenize_pad {front back text : Text} (hfront : ∀ c ∈ front, isBlank c = true)
    (hback : ∀ c ∈ back, isBlank c = true) (hhead : Headed (ofText text)) (htail : Tailed (ofText text)) :
    tokenize (front ++ text ++ back) =
      (pad (ofText front) (ofText back) (tokenize text).1, (tokenize text).2) := by
  have htext : ofText (front ++ text ++ back) = pad (ofText front) (ofText back) (ofText text) := by
    rw [(unlifted_ofText text).pad (blank_ofText hback)]
    simp [ofText]
  rw [tokenize, htext]
  exact rewrite_pad (List.Subset.refl _) (blank_ofText hfront) (blank_ofText hback) hhead htail .new

end Passage

end FilterQuery
