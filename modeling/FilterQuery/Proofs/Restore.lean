import FilterQuery.Proofs.Passage.Expand
/-!
# Tokenizing loses nothing

`Tokenized.restore` puts back what the keys of a skeleton stand for, from the newest
key to the oldest. `Tokenized.dropBlanks_restore` says that this gives the input
again, up to blanks.
-/

namespace FilterQuery

namespace Text

/-- The text with every occurrence of `old` replaced, read from the left. The number
counts the characters of an occurrence that are still to be passed over. -/
def replaceFrom (old new : Text) : (skip : Nat) → Text → Text
  | _, [] => []
  | skip + 1, _ :: text => replaceFrom old new skip text
  | 0, c :: text =>
    if old <+: c :: text then new ++ replaceFrom old new (old.length - 1) text
    else c :: replaceFrom old new 0 text

/-- The text with every occurrence of `old` replaced. -/
def replaceAll (old new text : Text) : Text := replaceFrom old new 0 text

theorem replaceFrom_skip (old new passed text : Text) :
    replaceFrom old new passed.length (passed ++ text) = replaceAll old new text := by
  induction passed with
  | nil => rfl
  | cons c passed ih => exact ih

theorem replaceAll_append_self {old : Text} (hne : old ≠ []) (new text : Text) :
    replaceAll old new (old ++ text) = new ++ replaceAll old new text := by
  obtain ⟨c, rest, rfl⟩ := List.exists_cons_of_ne_nil hne
  have hp : c :: rest <+: c :: (rest ++ text) := ⟨text, rfl⟩
  rw [replaceAll, List.cons_append, replaceFrom, if_pos hp]
  exact congrArg (new ++ ·) (replaceFrom_skip ..)

theorem replaceAll_cons {old text : Text} {c : Char} (h : ¬ old <+: c :: text) (new : Text) :
    replaceAll old new (c :: text) = c :: replaceAll old new text := by
  rw [replaceAll, replaceFrom, if_neg h]
  rfl

/-- A word whose first character is not among those in front is not found there. -/
theorem replaceAll_append_of_not_mem {c : Char} {rest front : Text} (hc : c ∉ front) (new text : Text) :
    replaceAll (c :: rest) new (front ++ text) = front ++ replaceAll (c :: rest) new text := by
  induction front with
  | nil => rfl
  | cons d front ih =>
    have hp : ¬ c :: rest <+: d :: (front ++ text) := by
      intro hp
      obtain ⟨rfl, -⟩ := List.cons_prefix_cons.1 hp
      simp at hc
    rw [List.cons_append, replaceAll_cons hp, ih (List.not_mem_of_not_mem_cons hc)]
    rfl

end Text

/-- What stood in the text where the key of a lift stands. -/
def Lift.shown (lift : Lift) : Text := lift.tier.wrap lift.value

/-- The skeleton with every key replaced by what it stands for. What a key stands for
holds older keys only, so that going from the newest to the oldest leaves no key. -/
def Tokenized.restore (tokenized : Tokenized) : Text :=
  tokenized.newestFirst.foldl (fun text lift => Text.replaceAll lift.key lift.shown text) tokenized.skeleton

namespace Passage

/-- What stands in a passage where the key of a lift stands, with the keys in it. -/
def wrap : Tier → Passage → Passage
  | .group, content => .char '(' :: content ++ [.char ')']
  | _, content => content

/-- The passage with the key of a lift replaced by what it stands for. -/
def putBack (lifted : Lifted) (p : Passage) : Passage :=
  p.flatMap fun
    | .key number tier value =>
      if number = lifted.number then wrap lifted.tier lifted.value else [.key number tier value]
    | .char c => [.char c]

theorem spell_wrap (suffix : Text) (tier : Tier) (p : Passage) :
    spell suffix (wrap tier p) = tier.wrap (spell suffix p) := by
  cases tier with
  | group => simp [wrap, Tier.wrap]
  | _ => rfl

theorem expand_wrap (tier : Tier) (p : Passage) : expand (wrap tier p) = tier.wrap (expand p) := by
  cases tier with
  | group => simp [wrap, Tier.wrap]
  | _ => rfl

theorem within_wrap {lifts : List Lifted} {p : Passage} (h : Within lifts p) (tier : Tier) :
    Within lifts (wrap tier p) := by
  intro lifted hm
  cases tier with
  | group =>
    have hp : lifted.piece ∈ p := by simpa [wrap, Lifted.piece] using hm
    exact h lifted hp
  | _ => exact h lifted hm

/-- Replacing a key in a spelled passage puts back what it stands for. -/
theorem replaceAll_spell {suffix : Text} (hs : Suffix.IsHex suffix) (lifted : Lifted) {p : Passage}
    (hf : Fresh suffix p) :
    Text.replaceAll (Minter.key suffix lifted.number) (lifted.spell suffix).shown (spell suffix p) =
      spell suffix (putBack lifted p) := by
  induction p with
  | nil => rfl
  | cons piece p ih =>
    have hp := ih (hf.mono (List.suffix_cons piece p).isInfix)
    cases piece with
    | char c =>
      have hno : ¬ Minter.key suffix lifted.number <+: c :: spell suffix p := by
        intro hkey
        obtain ⟨tier, value, rest, he⟩ := eq_key_of_prefix hs (hf lifted.number) hkey
        cases he
      rw [spell_char_cons, Text.replaceAll_cons hno, hp]
      rfl
    | key number tier value =>
      rw [spell_key_cons]
      by_cases hn : number = lifted.number
      · have hback : putBack lifted (.key number tier value :: p) =
            wrap lifted.tier lifted.value ++ putBack lifted p := by simp [putBack, hn]
        rw [hn, Text.replaceAll_append_self (by simp [Minter.key]), hp, ← hn, hback, spell_append, spell_wrap]
        rfl
      · have hback : putBack lifted (.key number tier value :: p) =
            .key number tier value :: putBack lifted p := by simp [putBack, hn]
        -- the key that is looked for begins with the character that keys begin with
        -- and hold nowhere else
        have hno : ¬ Minter.key suffix lifted.number <+: Minter.key suffix number ++ spell suffix p :=
          fun h => hn (eq_of_prefix_key h).symm
        have hx : 'x' ∉ Text.ofNat number ++ '_' :: suffix := by
          simp [x_not_mem_ofNat, x_not_mem_suffix hs]
        have hcons : Minter.key suffix number ++ spell suffix p =
            'x' :: ((Text.ofNat number ++ '_' :: suffix) ++ spell suffix p) := rfl
        rw [hback, spell_key_cons, ← hp, hcons]
        rw [hcons] at hno
        rw [Text.replaceAll_cons hno]
        exact congrArg ('x' :: ·) (Text.replaceAll_append_of_not_mem hx _ _)

/-- Putting back the newest lift keeps what is written and leaves keys of older ones. -/
theorem putBack_newest {lifted : Lifted} {older : List Lifted} (hv : Within older lifted.value)
    (hn : ∀ other ∈ older, other.number ≠ lifted.number) {p : Passage} (hp : Within (lifted :: older) p) :
    expand (putBack lifted p) = expand p ∧ Within older (putBack lifted p) := by
  induction p with
  | nil => exact ⟨rfl, fun other hm => by cases hm⟩
  | cons piece p ih =>
    obtain ⟨he, hw⟩ := ih (hp.mono (List.Subset.refl _) (List.subset_cons_self _ _))
    cases piece with
    | char c =>
      refine ⟨by simpa [putBack] using he, fun other hm => hw other ?_⟩
      simpa [putBack, Lifted.piece] using hm
    | key number tier value =>
      rcases List.mem_cons.1 (hp ⟨number, tier, value⟩ List.mem_cons_self) with rfl | hm
      · have hback : putBack ⟨number, tier, value⟩ (.key number tier value :: p) =
            wrap tier value ++ putBack ⟨number, tier, value⟩ p := by simp [putBack]
        rw [hback]
        exact ⟨by simp [he, expand_wrap], (within_wrap hv tier).append hw⟩
      · have hback : putBack lifted (.key number tier value :: p) =
            .key number tier value :: putBack lifted p := by simp [putBack, hn _ hm]
        rw [hback]
        refine ⟨by simp [he], fun other ho => ?_⟩
        rcases List.mem_cons.1 ho with ho | ho
        · exact Lifted.piece_injective (m := ⟨number, tier, value⟩) ho ▸ hm
        · exact hw other ho

/-- Putting back layered lifts, newest first, writes a passage out. -/
theorem foldl_replaceAll_spell {suffix : Text} (hs : Suffix.IsHex suffix) {lifts : List Lifted}
    (hl : Layered lifts) (hn : (lifts.map (·.number)).Nodup) {p : Passage} (hw : Within lifts p)
    (hf : Fresh suffix p) :
    (lifts.map (Lifted.spell suffix)).foldl (fun text lift => Text.replaceAll lift.key lift.shown text)
      (spell suffix p) = expand p := by
  induction lifts generalizing p with
  | nil =>
    have hchars : ∀ piece ∈ p, ∃ c, piece = .char c := by
      rintro (c | ⟨number, tier, value⟩) hm
      · exact ⟨c, rfl⟩
      · exact absurd (hw ⟨number, tier, value⟩ hm) List.not_mem_nil
    clear hw hf
    induction p with
    | nil => simp
    | cons piece p ih =>
      obtain ⟨c, rfl⟩ := hchars piece List.mem_cons_self
      have hp := ih fun piece hm => hchars piece (List.mem_cons_of_mem _ hm)
      simpa using hp
  | cons lifted older ih =>
    obtain ⟨hmem, hn⟩ := List.nodup_cons.1 hn
    have hnum : ∀ other ∈ older, other.number ≠ lifted.number :=
      fun other ho he => hmem (List.mem_map.2 ⟨other, ho, he⟩)
    obtain ⟨he, hw⟩ := putBack_newest hl.1 hnum hw
    have hf' : Fresh suffix (putBack lifted p) := by
      intro n
      rw [he]
      exact hf n
    rw [List.map_cons, List.foldl_cons, ← he, ← ih hl.2 hn hw hf']
    rw [← replaceAll_spell hs lifted hf]
    rfl

end Passage

/-- Restoring a tokenized input gives the input again, up to blanks. -/
theorem Tokenized.dropBlanks_restore {input suffix : Text}
    (h : Suffix.Admissible input.dropBlanks suffix) :
    (Tokenized.ofText suffix input).restore.dropBlanks = input.dropBlanks := by
  have hs : Suffix.IsHex suffix := h.2.1
  obtain ⟨hr, -⟩ := Passage.tokenize_sound input
  obtain ⟨hw, hf⟩ := Passage.known_tokenize hs h.not_infix_key
  rw [ofText_eq hs, restore, Passage.foldl_replaceAll_spell hs hr.layered hr.nodup hw hf,
    Passage.dropBlanks_expand_tokenize]

theorem Tokenized.dropBlanks_restore_group :
    Suffix.Admissible (Text.dropBlanks "( a = 'x y' ) | b ~ 1".toList) "f0".toList ∧
      (Tokenized.ofText "f0".toList "( a = 'x y' ) | b ~ 1".toList).restore.dropBlanks =
        "(a='xy')|b~1".toList :=
  ⟨by decide, (Tokenized.dropBlanks_restore (by decide)).trans (by decide)⟩

end FilterQuery
