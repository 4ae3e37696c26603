import FilterQuery.Proofs.Forest
import FilterQuery.Proofs.Isolation
import FilterQuery.Proofs.Precedence
/-!
# Flat texts are split

A text without quotes and parentheses is tokenized by splitting it: at `|` into alternatives,
and these at `&` into clauses. `FlatAlternative.Splits` says how keys are given out: a clause
has one if a mark stands inside it, and an alternative has one if a conjunction stands in it.
`Tokenized.exists_split` says that the skeleton and the table are what is read off the split.
-/

namespace FilterQuery

/-- A mark stands in the clause, other than first or last. -/
def isCaptured (clause : Text) : Bool := clause.interior.any fun c => c ∈ ['<', '>', '=', '~']

/-- A clause of a split text, with the number of its key if it has one. -/
structure FlatClause where
  text : Text
  number? : Option Nat

/-- An alternative of a split text, with the number of its key if it has one. -/
structure FlatAlternative where
  clauses : List FlatClause
  number? : Option Nat

namespace FlatClause
variable (suffix : Text) (clause : FlatClause)

/-- The clause where it stands alone: its key, or else its text as it is. -/
def left : Text := clause.number?.elim clause.text (Minter.key suffix)

/-- The clause in a conjunction: its key, or else its text without blanks. -/
def kept : Text := clause.number?.elim clause.text.dropBlanks (Minter.key suffix)

/-- The entry of the clause, if it has a key. -/
def entries : List Entry :=
  clause.number?.toList.map fun number => ⟨Minter.key suffix number, clause.text.dropBlanks⟩

end FlatClause

namespace FlatAlternative
variable (suffix : Text) (alternative : FlatAlternative)

/-- The alternative in the skeleton: its key, or else its clauses as they are. -/
def left : Text :=
  alternative.number?.elim (['&'].intercalate (alternative.clauses.map (·.left suffix))) (Minter.key suffix)

/-- What the key of the alternative stands for. -/
def value : Text := ['&'].intercalate (alternative.clauses.map (·.kept suffix))

/-- The entries of the alternative and of its clauses. -/
def entries : List Entry :=
  (alternative.number?.toList.map fun number => ⟨Minter.key suffix number, alternative.value suffix⟩) ++
    alternative.clauses.flatMap (·.entries suffix)

/-- The alternative is the text, split at `&`. A clause has a key iff it is captured, and the
alternative iff it is a conjunction. -/
structure Splits (text : Text) (alternative : FlatAlternative) : Prop where
  texts : alternative.clauses.map (·.text) = text.splitOn '&'
  captured : ∀ clause ∈ alternative.clauses, clause.number?.isSome = isCaptured clause.text
  joined : alternative.number?.isSome = decide ('&' ∈ text)

end FlatAlternative

/-! ## Splitting and joining -/

/-- No part of a split text has the separator. -/
theorem not_mem_of_mem_splitOn {c : Char} {text : Text} : ∀ part ∈ text.splitOn c, c ∉ part := by
  induction text with
  | nil => simp
  | cons d text ih =>
    obtain ⟨part, parts, hparts⟩ := List.exists_cons_of_ne_nil (List.splitOnP_ne_nil (· == c) text)
    rw [List.splitOn_eq_splitOnP, hparts, List.forall_mem_cons] at ih
    rw [List.splitOn_eq_splitOnP, List.splitOnP_cons_eq_if_modifyHead, hparts]
    split
    · exact List.forall_mem_cons.2 ⟨List.not_mem_nil, List.forall_mem_cons.2 ih⟩
    · next hd =>
      have hd : c ≠ d := fun h => hd (by simp [h])
      exact List.forall_mem_cons.2 ⟨fun hm => (List.mem_cons.1 hm).elim hd ih.1, ih.2⟩

theorem subset_of_mem_splitOn {c : Char} {text part : Text} (h : part ∈ text.splitOn c) : part ⊆ text := by
  rw [List.splitOn_eq_splitOnP] at h
  exact (infix_of_mem_splitOnP h).subset

theorem exists_of_forall₂_exists {α β γ : Type} {P : α → γ → Prop} {Q : γ → β → Prop} {xs : List α}
    {ys : List β} (h : List.Forall₂ (fun x y => ∃ z, P x z ∧ Q z y) xs ys) :
    ∃ zs, List.Forall₂ P xs zs ∧ List.Forall₂ Q zs ys := by
  induction h with
  | nil => exact ⟨[], .nil, .nil⟩
  | cons hxy _ ih =>
    obtain ⟨z, hxz, hzy⟩ := hxy
    obtain ⟨zs, hxs, hys⟩ := ih
    exact ⟨z :: zs, .cons hxz hxs, .cons hzy hys⟩

namespace Passage

theorem ofText_intercalate (c : Char) (texts : List Text) :
    ofText ([c].intercalate texts) = join c (texts.map ofText) := by
  induction texts with
  | nil => rfl
  | cons text texts ih =>
    cases texts with
    | nil => simp [join_singleton]
    | cons other texts =>
      rw [List.intercalate_cons_cons, List.map_cons, join_cons (by simp), ← ih]
      simp [ofText]

theorem spell_join (suffix : Text) (c : Char) (ps : List Passage) :
    spell suffix (join c ps) = [c].intercalate (ps.map (spell suffix)) := by
  induction ps with
  | nil => rfl
  | cons p ps ih =>
    cases ps with
    | nil => simp [join_singleton]
    | cons q ps =>
      rw [join_cons (by simp), spell_append, spell_char_cons, ih]
      simp only [List.map_cons, List.intercalate_cons_cons, List.append_assoc, List.singleton_append]

theorem lifts_join (c : Char) (ps : List Passage) : lifts (join c ps) = ps.flatMap lifts := by
  induction ps with
  | nil => simp [join]
  | cons p ps ih =>
    cases ps with
    | nil => simp [join_singleton]
    | cons q ps =>
      rw [join_cons (by simp), lifts_append, lifts_cons, lifts_char, List.nil_append, ih]
      rfl

/-- The clauses of a text, alternative by alternative. -/
theorem ofText_eq_ofAlternatives (text : Text) :
    ofText text = ofAlternatives ((text.splitOn '|').map fun part => (part.splitOn '&').map ofText) := by
  have hpart : ∀ part : Text, join '&' ((part.splitOn '&').map ofText) = ofText part := by
    intro part
    rw [← ofText_intercalate, List.intercalate_splitOn]
  rw [ofAlternatives, List.map_map]
  simp only [Function.comp_def, hpart]
  rw [← ofText_intercalate, List.intercalate_splitOn]

/-- A text is split in two or more where it has the separator. -/
theorem two_le_length_splitOn_iff {c : Char} {text : Text} : 2 ≤ (text.splitOn c).length ↔ c ∈ text := by
  have hparts : ∀ p ∈ (text.splitOn c).map ofText, .char c ∉ p := by
    intro p hm
    obtain ⟨part, hpart, rfl⟩ := List.mem_map.1 hm
    simpa [ofText] using not_mem_of_mem_splitOn part hpart
  have hjoin := mem_join_self_iff hparts
  rwa [← ofText_intercalate, List.intercalate_splitOn, List.length_map, ofText,
    List.mem_map_of_injective fun c d => Piece.char.inj, iff_comm] at hjoin

/-- The clauses of a text without quotes and parentheses are plain. -/
theorem plain_of_mem_splitOn {input part clause : Text} (hinput : ∀ c ∈ ['\'', '"', '(', ')'], c ∉ input)
    (hpart : part ∈ input.splitOn '|') (hclause : clause ∈ part.splitOn '&') : Plain (ofText clause) := by
  intro c hc hm
  have hm : c ∈ clause := by simpa [ofText] using hm
  have hm' : c ∈ part := subset_of_mem_splitOn hclause hm
  rw [show ['\'', '"', '(', ')', '&', '|'] = ['\'', '"', '(', ')'] ++ ['&', '|'] from rfl, List.mem_append] at hc
  rcases hc with hc | hc
  · exact hinput c hc (subset_of_mem_splitOn hpart hm')
  · have hc : c = '&' ∨ c = '|' := by simpa using hc
    rcases hc with rfl | rfl
    · exact not_mem_of_mem_splitOn _ hclause hm
    · exact not_mem_of_mem_splitOn _ hpart hm'

/-! ## What is left of clauses and alternatives -/

theorem isMark_iff {c : Char} : isMark c = true ↔ c ∈ ['<', '>', '=', '~'] := by
  constructor
  · intro h
    obtain ⟨symbol, hsymbol⟩ := exists_symbol_of_isMark h
    cases symbol <;> cases hsymbol <;> decide
  · intro h
    simp only [List.mem_cons, List.not_mem_nil, or_false] at h
    rcases h with rfl | rfl | rfl | rfl <;> decide

/-- A clause is captured iff a tier of comparisons accepts it. -/
theorem any_accepts_ofText (text : Text) :
    Tier.comparisons.any (·.accepts ((ofText text).map Piece.view)) = isCaptured text := by
  have hviews : ((ofText text).map Piece.view).tail.dropLast = text.interior.map some := by
    simp [ofText, Text.interior, Function.comp_def, Piece.view]
  rw [Bool.eq_iff_iff, List.any_eq_true, isCaptured, List.any_eq_true]
  constructor
  · rintro ⟨tier, ht, haccepts⟩
    obtain ⟨symbol, rfl⟩ : ∃ symbol, tier = .comparison symbol := by
      simp only [Tier.comparisons, List.mem_cons, List.not_mem_nil, or_false] at ht
      rcases ht with rfl | rfl | rfl | rfl | rfl | rfl | rfl | rfl <;> exact ⟨_, rfl⟩
    rw [Tier.accepts, hviews, decide_eq_true_eq, infix_map_iff_of_injective (Option.some_injective _)] at haccepts
    obtain ⟨c, hc, hmark⟩ := symbol.exists_isMark
    exact ⟨c, haccepts.subset hc, decide_eq_true (isMark_iff.1 hmark)⟩
  · rintro ⟨c, hc, hmark⟩
    obtain ⟨symbol, hsymbol⟩ := exists_symbol_of_isMark (isMark_iff.2 (of_decide_eq_true hmark))
    refine ⟨.comparison symbol, ?_, ?_⟩
    · cases symbol <;> simp_all [Comparison.symbol, Tier.comparisons]
    · obtain ⟨u, v, huv⟩ := List.append_of_mem hc
      rw [Tier.accepts, hviews, hsymbol, decide_eq_true_eq, infix_map_iff_of_injective (Option.some_injective _)]
      exact ⟨u, v, by simp [huv]⟩

/-- The entries of all keys in a passage and in what they stand for. -/
def entries (suffix : Text) (p : Passage) : List Entry := (lifts p).map fun lifted => (lifted.spell suffix).entry

theorem entries_key (suffix : Text) (number : Nat) (tier : Tier) (value : Passage) :
    entries suffix [.key number tier value] =
      ⟨Minter.key suffix number, spell suffix value⟩ :: entries suffix value := by
  simp [entries, Lifted.spell, Lift.entry]

theorem entries_dropBlanks (suffix : Text) (p : Passage) : entries suffix p.dropBlanks = entries suffix p := by
  rw [entries, lifts_dropBlanks, entries]

theorem entries_join (suffix : Text) (c : Char) (ps : List Passage) :
    entries suffix (join c ps) = ps.flatMap (entries suffix) := by
  rw [entries, lifts_join, List.map_flatMap]
  rfl

end Passage

open Passage

/-- The passage is what is left of the clause. -/
structure FlatClause.Shown (suffix : Text) (clause : FlatClause) (q : Passage) : Prop where
  left : spell suffix q = clause.left suffix
  kept : spell suffix q.dropBlanks = clause.kept suffix
  entries : q.entries suffix = clause.entries suffix

/-- The passage is what is left of the alternative. -/
structure FlatAlternative.Shown (suffix : Text) (alternative : FlatAlternative) (q : Passage) : Prop where
  left : spell suffix q = alternative.left suffix
  entries : q.entries suffix = alternative.entries suffix

namespace Passage

section Shown
variable {suffix : Text} {clauses : List FlatClause} {qs : List Passage}
  (h : List.Forall₂ (FlatClause.Shown suffix) clauses qs)
include h

theorem spell_join_of_shown : spell suffix (join '&' qs) = ['&'].intercalate (clauses.map (·.left suffix)) := by
  rw [spell_join, ← map_eq_map_of_forall₂ (h.imp fun clause q h => h.left.symm)]

theorem spell_dropBlanks_join_of_shown :
    spell suffix (dropBlanks (join '&' qs)) = ['&'].intercalate (clauses.map (·.kept suffix)) := by
  rw [dropBlanks_join (by decide), spell_join, List.map_map,
    map_eq_map_of_forall₂ (h.imp fun clause q h => h.kept.symm)]
  rfl

theorem entries_join_of_shown : entries suffix (join '&' qs) = clauses.flatMap (·.entries suffix) := by
  rw [entries_join, List.flatMap_def, List.flatMap_def,
    ← map_eq_map_of_forall₂ (h.imp fun clause q h => h.entries.symm)]

end Shown

section Hex
variable {suffix : Text} (hs : Suffix.IsHex suffix)
include hs

/-- A clause that the tiers of comparisons have passed has a key iff it is captured. -/
theorem ClauseLifted.exists_shown {text : Text} {q : Passage} (h : ClauseLifted Tier.comparisons (ofText text) q) :
    ∃ clause : FlatClause, (clause.text = text ∧ clause.number?.isSome = isCaptured clause.text) ∧
      clause.Shown suffix q := by
  have hkept : spell suffix (dropBlanks (ofText text)) = text.dropBlanks := by
    rw [← dropBlanks_spell hs, spell_ofText]
  unfold ClauseLifted at h
  rw [any_accepts_ofText] at h
  cases hcaptured : isCaptured text with
  | false =>
    rw [if_neg (by simp [hcaptured])] at h
    subst h
    exact ⟨⟨text, none⟩, ⟨rfl, hcaptured.symm⟩, spell_ofText suffix text, hkept,
      by simp [entries, FlatClause.entries]⟩
  | true =>
    rw [if_pos hcaptured] at h
    obtain ⟨number, tier, -, rfl⟩ := h
    have hkey : spell suffix [.key number tier (dropBlanks (ofText text))] = Minter.key suffix number := by simp
    refine ⟨⟨text, some number⟩, ⟨rfl, hcaptured.symm⟩, hkey, hkey, ?_⟩
    rw [entries_key, hkept, entries_dropBlanks]
    simp [entries, FlatClause.entries]

omit hs in
/-- What is left of an alternative has no separator of alternatives. -/
theorem AlternativeLifted.not_mem {segs : List Passage} {q : Passage} (h : AlternativeLifted segs q)
    (hplain : ∀ seg ∈ segs, Plain seg) : .char '|' ∉ q := by
  obtain ⟨qs, hqs, hq⟩ := h
  split at hq
  · obtain ⟨number, rfl⟩ := hq
    simp
  · subst hq
    intro hm
    rcases mem_join hm with h | ⟨q, hq, hm⟩
    · cases h
    · obtain ⟨seg, hseg, hlifted⟩ := exists_of_mem_forall₂ hqs hq
      exact hlifted.plain (hplain seg hseg) '|' (by simp) hm

/-- An alternative that all tiers have passed has a key iff it is a conjunction. -/
theorem AlternativeLifted.exists_shown {part : Text} {q : Passage}
    (h : AlternativeLifted ((part.splitOn '&').map ofText) q) :
    ∃ alternative : FlatAlternative, alternative.Splits part ∧ alternative.Shown suffix q := by
  obtain ⟨qs, hqs, hq⟩ := h
  obtain ⟨clauses, hclauses, hshown⟩ := exists_of_forall₂_exists
    ((List.forall₂_map_left_iff.1 hqs).imp fun text q hlifted => hlifted.exists_shown hs)
  have htexts : clauses.map (·.text) = part.splitOn '&' := by
    have hmap := map_eq_map_of_forall₂ (f := id) (hclauses.imp fun text clause h => h.1.symm)
    rw [← hmap, List.map_id]
  have hcaptured : ∀ clause ∈ clauses, clause.number?.isSome = isCaptured clause.text := by
    intro clause hm
    obtain ⟨text, -, -, hcaptured⟩ := exists_of_mem_forall₂ hclauses hm
    exact hcaptured
  rw [List.length_map] at hq
  by_cases hand : '&' ∈ part
  · rw [if_pos (two_le_length_splitOn_iff.2 hand)] at hq
    obtain ⟨number, rfl⟩ := hq
    refine ⟨⟨clauses, some number⟩, ⟨htexts, hcaptured, by simp [hand]⟩, by simp [FlatAlternative.left], ?_⟩
    rw [entries_key, entries_dropBlanks, spell_dropBlanks_join_of_shown hshown, entries_join_of_shown hshown]
    rfl
  · rw [if_neg (mt two_le_length_splitOn_iff.1 hand)] at hq
    subst hq
    exact ⟨⟨clauses, none⟩, ⟨htexts, hcaptured, by simp [hand]⟩, spell_join_of_shown hshown,
      entries_join_of_shown hshown⟩

/-- A text without quotes and parentheses is taken apart alternative by alternative. -/
theorem exists_alternatives {input : Text} (hbare : ∀ c ∈ ['\'', '"', '(', ')'], c ∉ input) :
    ∃ alternatives qs, List.Forall₂ FlatAlternative.Splits (input.splitOn '|') alternatives ∧
      List.Forall₂ (FlatAlternative.Shown suffix) alternatives qs ∧ (tokenize input).1 = join '|' qs ∧
      split '|' (tokenize input).1 = qs := by
  have hsegs : ∀ part ∈ input.splitOn '|', ∀ seg ∈ (part.splitOn '&').map ofText, Plain seg := by
    intro part hpart seg hseg
    obtain ⟨text, htext, rfl⟩ := List.mem_map.1 hseg
    exact plain_of_mem_splitOn hbare hpart htext
  have hsegss : ∀ segs ∈ (input.splitOn '|').map fun part => (part.splitOn '&').map ofText,
      segs ≠ [] ∧ ∀ seg ∈ segs, Plain seg :=
    List.forall_mem_map.2 fun part hpart => ⟨by simp, hsegs part hpart⟩
  obtain ⟨after, qs, hqs, hrun⟩ := rewrite_flat (by simp) hsegss .new
  rw [← ofText_eq_ofAlternatives] at hrun
  have hskeleton : (tokenize input).1 = join '|' qs := congrArg Prod.fst hrun
  have hbar : ∀ q ∈ qs, .char '|' ∉ q := by
    intro q hq
    obtain ⟨segs, hm, hlifted⟩ := exists_of_mem_forall₂ hqs hq
    exact hlifted.not_mem (hsegss segs hm).2
  have hne : qs ≠ [] := by
    rintro rfl
    simp [List.forall₂_nil_right_iff] at hqs
  obtain ⟨alternatives, halternatives, hshown⟩ := exists_of_forall₂_exists
    ((List.forall₂_map_left_iff.1 hqs).imp fun part q hlifted => hlifted.exists_shown hs)
  exact ⟨alternatives, qs, halternatives, hshown, hskeleton, by rw [hskeleton, split_join hne hbar]⟩

end Hex

end Passage

/-! ## The split -/

namespace Tokenized

/-- A text without quotes and parentheses is tokenized by splitting it. -/
theorem exists_split {input suffix : Text} (hs : Suffix.IsHex suffix)
    (hbare : ∀ c ∈ ['\'', '"', '(', ')'], c ∉ input) :
    ∃ alternatives : List FlatAlternative,
      List.Forall₂ FlatAlternative.Splits (input.splitOn '|') alternatives ∧
      (ofText suffix input).skeleton.splitOn '|' = alternatives.map (·.left suffix) ∧
      (ofText suffix input).table.toList.Perm (alternatives.flatMap (·.entries suffix)) ∧
      ((ofText suffix input).table.toList.map (·.key)).Nodup := by
  obtain ⟨alternatives, qs, halternatives, hshown, hskeleton, hsplit⟩ := exists_alternatives hs hbare
  refine ⟨alternatives, halternatives, ?_, ?_, ?_⟩
  · rw [ofText_eq hs, splitOn_spell hs (by decide), hsplit,
      ← map_eq_map_of_forall₂ (hshown.imp fun alternative q h => h.left.symm)]
  · have hentries : (tokenize input).1.entries suffix = alternatives.flatMap (·.entries suffix) := by
      rw [hskeleton, entries_join, List.flatMap_def, List.flatMap_def,
        ← map_eq_map_of_forall₂ (hshown.imp fun alternative q h => h.entries.symm)]
    rw [toList_table_ofText hs, ← hentries]
    exact (List.reverse_perm _).trans ((lifts_tokenize input).map _)
  · rw [table_ofText hs, Table.toList, List.map_reverse, List.nodup_reverse]
    exact Register.nodup_keys suffix (tokenize_sound input).1

/-- Symbols at the edges of a clause are no comparison, and doubled ones are one. -/
theorem exists_split_edges :
    let input := "a>==1 & b|=c= |= d".toList
    let tokenized := ofText "f0".toList input
    Suffix.IsHex "f0".toList ∧ (∀ c ∈ ['\'', '"', '(', ')'], c ∉ input) ∧
      (∃ alternatives : List FlatAlternative,
        List.Forall₂ FlatAlternative.Splits (input.splitOn '|') alternatives ∧
        tokenized.skeleton.splitOn '|' = alternatives.map (·.left "f0".toList) ∧
        tokenized.table.toList.Perm (alternatives.flatMap (·.entries "f0".toList)) ∧
        (tokenized.table.toList.map (·.key)).Nodup) ∧
      tokenized.skeleton = "x3_f0|x2_f0|= d".toList :=
  ⟨rfl, by simp, exists_split rfl (by simp), by decide +kernel⟩

end Tokenized

end FilterQuery
