import FilterQuery.Proofs.Passage.Expand
import Mathlib.Algebra.Ring.Nat
import Mathlib.Data.List.Perm.Subperm
/-!
# Counting keys

Rewriting puts up one key for every lift that it notes down, and moves keys, but never
drops or copies one: `Passage.standing_rewrite` is the balance over a run of the tiers.
A tokenized input so has every key exactly once, either in the skeleton or in what one
lift stands for, and the numbers of its lifts are all numbers from 1 on.

`Passage.lifts` lists the keys of a passage written out, and `Passage.lifts_tokenize` says
that these are all that is noted down: every lift hangs from the skeleton.

`Passage.occurrences_spell` counts a key in spelled text: once for every key that was
put there, and once for every place where its characters are written by hand.
-/

namespace FilterQuery

/-- The number of places at which a word stands in a list. -/
def occurrences {α : Type} [DecidableEq α] (word l : List α) : Nat := l.tails.countP (word <+: ·)

/-- The number of a key. -/
def Piece.number? : Piece → Option Nat
  | .char _ => none
  | .key number .. => some number

/-- How often the key of a number stands in a passage. Keys in what a key stands for are
not counted. -/
def Passage.keyCount (n : Nat) (p : Passage) : Nat := p.countP (·.number? = some n)

mutual

/-- The lift of a key, with the lifts of the keys in what it stands for. -/
def Piece.lifts : Piece → List Lifted
  | .char _ => []
  | .key number tier value => ⟨number, tier, value⟩ :: Passage.lifts value

/-- The lifts of all keys in a passage and in what they stand for. -/
def Passage.lifts : List Piece → List Lifted
  | [] => []
  | piece :: p => piece.lifts ++ Passage.lifts p

end

namespace Register

/-- How often the key of a number stands in what the lifts stand for. -/
def heldCount (n : Nat) (register : Register) : Nat :=
  (register.newestFirst.map fun lifted => Passage.keyCount n lifted.value).sum

/-- How many lifts have the number. -/
def notedCount (n : Nat) (register : Register) : Nat := register.newestFirst.countP (·.number = n)

end Register

namespace Passage

/-! ## The balance of a run -/

section Count
variable (n : Nat)

@[simp]
theorem keyCount_append (p q : Passage) : keyCount n (p ++ q) = keyCount n p + keyCount n q :=
  List.countP_append

theorem keyCount_dropBlanks (p : Passage) : keyCount n p.dropBlanks = keyCount n p := by
  unfold keyCount dropBlanks
  rw [List.countP_filter]
  congr 1
  funext piece
  cases piece <;> simp [Piece.number?, Piece.isBlank, Piece.view]

theorem keyCount_keep (tier : Tier) (p : Passage) : keyCount n (tier.keep p) = keyCount n p := by
  cases tier with
  | literal quote => rfl
  | _ => exact keyCount_dropBlanks n p

theorem keyCount_interior {l part after : Passage} (h : Tier.group.front? Piece.view l = some (part, after)) :
    keyCount n (interior part) = keyCount n part := by
  obtain ⟨a, inner, b, rfl, ha, hb, -⟩ := Tier.eq_of_front?_group h
  cases a with
  | key => cases ha
  | char c =>
    cases b with
    | key => cases hb
    | char d => simp [interior, keyCount, Piece.number?]

theorem keyCount_replace (cut : Cut Piece) (lifted : Lifted) :
    keyCount n (cut.replace lifted) =
      keyCount n cut.before + keyCount n cut.after + if lifted.number = n then 1 else 0 := by
  simp only [Cut.replace, keyCount_append, Lifted.piece]
  simp only [keyCount, List.countP_cons, Piece.number?, Option.some.injEq, decide_eq_true_eq]
  omega

theorem heldCount_store (register : Register) (lifted : Lifted) :
    (register.store lifted).heldCount n = keyCount n lifted.value + register.heldCount n := by
  simp [Register.heldCount, Register.store]

theorem notedCount_store (register : Register) (lifted : Lifted) :
    (register.store lifted).notedCount n = register.notedCount n + if lifted.number = n then 1 else 0 := by
  simp [Register.notedCount, Register.store, List.countP_cons]

/-- A run puts up as many keys of a number as it notes down lifts of that number. -/
theorem standing_rewrite (tiers : List Tier) (register : Register) (p : Passage) :
    keyCount n (rewrite tiers register p).1 + (rewrite tiers register p).2.heldCount n +
        register.notedCount n =
      keyCount n p + register.heldCount n + (rewrite tiers register p).2.notedCount n := by
  -- minting changes none of the counts
  have hheld : ∀ register : Register, register.mint.heldCount n = register.heldCount n := fun _ => rfl
  have hnoted : ∀ register : Register, register.mint.notedCount n = register.notedCount n := fun _ => rfl
  induction tiers, register, p using rewrite_induction with
  | done register p => rw [rewrite_nil]
  | pass tier tiers register p h ih => rwa [rewrite_pass h]
  | lift tier tiers register p cut h hg ih =>
    obtain ⟨hp, -⟩ := Tier.append_of_search? h
    have hv : keyCount n (lift tier register cut.part).value = keyCount n cut.part := keyCount_keep n tier cut.part
    rw [keyCount_replace, heldCount_store, notedCount_store, hheld, hnoted, hv] at ih
    rw [rewrite_lift h hg, hp, keyCount_append, keyCount_append]
    omega
  | group tiers register p cut h ihc ih =>
    obtain ⟨hp, hf⟩ := Tier.append_of_search? h
    have hv : keyCount n (liftGroup register cut.part).value = keyCount n (content register cut.part).1 :=
      keyCount_dropBlanks n _
    rw [keyCount_replace, heldCount_store, notedCount_store, hv] at ih
    rw [keyCount_interior n hf, hheld, hnoted] at ihc
    rw [rewrite_group h, hp, keyCount_append, keyCount_append]
    unfold content at ih ⊢
    omega

end Count

/-- A run takes a number for every lift that it notes down. -/
theorem minted_rewrite (tiers : List Tier) (register : Register) (p : Passage) :
    (rewrite tiers register p).2.minted + register.newestFirst.length =
      register.minted + (rewrite tiers register p).2.newestFirst.length := by
  induction tiers, register, p using rewrite_induction with
  | done register p => rw [rewrite_nil]
  | pass tier tiers register p h ih => rwa [rewrite_pass h]
  | lift tier tiers register p cut h hg ih =>
    rw [rewrite_lift h hg]
    simp only [Register.store, Register.mint, Register.next, List.length_cons] at ih ⊢
    omega
  | group tiers register p cut h ihc ih =>
    rw [rewrite_group h]
    simp only [content, Register.store, Register.mint, Register.next, List.length_cons] at ihc ih ⊢
    omega

/-! ## The lifts of a passage -/

@[simp]
theorem lifts_nil : lifts [] = [] := by rw [lifts]

@[simp]
theorem lifts_cons (piece : Piece) (p : Passage) : lifts (piece :: p) = piece.lifts ++ lifts p := by rw [lifts]

@[simp]
theorem lifts_char (c : Char) : (Piece.char c).lifts = [] := by rw [Piece.lifts]

@[simp]
theorem lifts_key (number : Nat) (tier : Tier) (value : Passage) :
    (Piece.key number tier value).lifts = ⟨number, tier, value⟩ :: lifts value := by rw [Piece.lifts]

@[simp]
theorem lifts_append (p q : Passage) : lifts (p ++ q) = lifts p ++ lifts q := by
  induction p with
  | nil => simp
  | cons piece p ih => simp [ih]

@[simp]
theorem lifts_ofText (text : Text) : lifts (ofText text) = [] := by
  induction text with
  | nil => simp [ofText]
  | cons c text ih => simpa [ofText] using ih

@[simp]
theorem lifts_dropBlanks (p : Passage) : lifts p.dropBlanks = lifts p := by
  induction p with
  | nil => rfl
  | cons piece p ih =>
    cases piece with
    | char c => cases hc : isBlank c <;> simpa [dropBlanks, Piece.isBlank, Piece.view, hc] using ih
    | key number tier value => simpa [dropBlanks, Piece.isBlank, Piece.view] using ih

theorem lifts_keep (tier : Tier) (p : Passage) : lifts (tier.keep p) = lifts p := by
  cases tier with
  | literal quote => rfl
  | _ => exact lifts_dropBlanks p

theorem lifts_interior {l part after : Passage} (h : Tier.group.front? Piece.view l = some (part, after)) :
    lifts (interior part) = lifts part := by
  obtain ⟨a, inner, b, rfl, ha, hb, -⟩ := Tier.eq_of_front?_group h
  cases a with
  | key => cases ha
  | char c =>
    cases b with
    | key => cases hb
    | char d => simp [interior]

theorem lifts_replace (cut : Cut Piece) (lifted : Lifted) :
    lifts (cut.replace lifted) = lifts cut.before ++ lifted :: (lifts lifted.value ++ lifts cut.after) := by
  simp [Cut.replace, Lifted.piece]

section Lifts
open Classical

/-- A run notes down the keys that it puts up, and keeps those that were there. -/
theorem lifts_rewrite (tiers : List Tier) (register : Register) (p : Passage) :
    (lifts (rewrite tiers register p).1 ++ register.newestFirst).Perm
      (lifts p ++ (rewrite tiers register p).2.newestFirst) := by
  rw [List.perm_iff_count]
  intro lifted
  induction tiers, register, p using rewrite_induction with
  | done register p => rw [rewrite_nil]
  | pass tier tiers register p h ih => rwa [rewrite_pass h]
  | lift tier tiers register p cut h hg ih =>
    have hv : lifts (lift tier register cut.part).value = lifts cut.part := lifts_keep tier cut.part
    rw [rewrite_lift h hg, (Tier.append_of_search? h).1]
    rw [lifts_replace, hv] at ih
    simp only [Register.store, Register.mint, List.count_append, List.count_cons, lifts_append] at ih ⊢
    omega
  | group tiers register p cut h ihc ih =>
    obtain ⟨hp, hf⟩ := Tier.append_of_search? h
    have hv : lifts (liftGroup register cut.part).value = lifts (content register cut.part).1 := lifts_dropBlanks _
    rw [rewrite_group h, hp]
    rw [lifts_interior hf] at ihc
    rw [lifts_replace, hv] at ih
    simp only [content, Register.store, Register.mint, List.count_append, List.count_cons, lifts_append] at ihc ih ⊢
    omega

end Lifts

/-! ## Tokenized inputs -/

/-- The lifts of a tokenized input are those of the keys in its skeleton, written out. -/
theorem lifts_tokenize (input : Text) : (tokenize input).2.newestFirst.Perm (lifts (tokenize input).1) := by
  have hrun := lifts_rewrite Tier.all .new (ofText input)
  simpa [tokenize, Register.new] using hrun.symm

/-- The numbers of the lifts are all numbers from 1 on, each taken once. -/
theorem numbers_perm (input : Text) :
    ((tokenize input).2.newestFirst.map (·.number)).Perm
      (List.range' 1 (tokenize input).2.newestFirst.length) := by
  have hr := (tokenize_sound input).1
  have hgrows : Register.new.Grows (tokenize input).2 :=
    (rewrite_sound Register.sound_new (within_ofText _ input)).2.1
  have hminted : (tokenize input).2.minted = (tokenize input).2.newestFirst.length := by
    simpa [tokenize, Register.new] using minted_rewrite Tier.all .new (ofText input)
  have hsub : (tokenize input).2.newestFirst.map (·.number) ⊆
      List.range' 1 (tokenize input).2.newestFirst.length := by
    intro n hn
    obtain ⟨lifted, hm, rfl⟩ := List.mem_map.1 hn
    obtain ⟨lifts, hlifts, hpos⟩ := hgrows.more
    rw [hlifts] at hm
    have hlt : 0 < lifted.number := hpos lifted (by simpa [Register.new] using hm)
    have hle := hr.le_minted lifted (hlifts ▸ hm)
    rw [List.mem_range'_1]
    omega
  exact (List.subperm_of_subset hr.nodup hsub).perm_of_length_le (by simp)

theorem notedCount_of_mem {register : Register} (hr : register.Sound) {lifted : Lifted}
    (hm : lifted ∈ register.newestFirst) : register.notedCount lifted.number = 1 := by
  have hcount : (register.newestFirst.map (·.number)).count lifted.number = 1 :=
    List.count_eq_one_of_mem hr.nodup (List.mem_map.2 ⟨lifted, hm, rfl⟩)
  rw [List.count_eq_countP, List.countP_map] at hcount
  exact hcount

/-- Every key stands once, in the skeleton or in what one of the lifts stands for. -/
theorem standing_tokenize {input : Text} {lifted : Lifted} (hm : lifted ∈ (tokenize input).2.newestFirst) :
    keyCount lifted.number (tokenize input).1 + (tokenize input).2.heldCount lifted.number = 1 := by
  have hbalance := standing_rewrite lifted.number Tier.all .new (ofText input)
  have hchars : keyCount lifted.number (ofText input) = 0 := by
    simp [keyCount, ofText, Piece.number?]
  have hnew : Register.new.heldCount lifted.number = 0 ∧ Register.new.notedCount lifted.number = 0 := ⟨rfl, rfl⟩
  have hnoted := notedCount_of_mem (tokenize_sound input).1 hm
  unfold tokenize at hnoted ⊢
  omega

theorem exists_of_keyCount {n : Nat} {p : Passage} (h : keyCount n p ≠ 0) :
    ∃ lifted : Lifted, lifted.number = n ∧ lifted.piece ∈ p := by
  obtain ⟨piece, hm, hn⟩ := List.countP_pos_iff.1 (Nat.pos_of_ne_zero h)
  cases piece with
  | char c => simp [Piece.number?] at hn
  | key number tier value =>
    obtain rfl : number = n := by simpa [Piece.number?] using hn
    exact ⟨⟨number, tier, value⟩, rfl, hm⟩

/-- The key of every lift stands in the skeleton, or in what another lift stands for. -/
theorem exists_standing {input : Text} {lifted : Lifted} (hm : lifted ∈ (tokenize input).2.newestFirst) :
    lifted.piece ∈ (tokenize input).1 ∨
      ∃ holder ∈ (tokenize input).2.newestFirst, lifted.piece ∈ holder.value := by
  obtain ⟨hr, hw⟩ := tokenize_sound input
  -- a key of the number is the key of the lift, because it is the key of some lift
  have hpiece : ∀ q, Within (tokenize input).2.newestFirst q → keyCount lifted.number q ≠ 0 → lifted.piece ∈ q := by
    intro q hq hcount
    obtain ⟨other, hn, hother⟩ := exists_of_keyCount hcount
    rwa [List.inj_on_of_nodup_map hr.nodup (hq other hother) hm hn] at hother
  have hone := standing_tokenize hm
  by_cases hskeleton : keyCount lifted.number (tokenize input).1 = 0
  · have hheld : 0 < (tokenize input).2.heldCount lifted.number := by omega
    obtain ⟨count, hcount, hpos⟩ := List.sum_pos_iff_exists_pos_nat.1 hheld
    obtain ⟨holder, hholder, rfl⟩ := List.mem_map.1 hcount
    exact .inr ⟨holder, hholder, hpiece _ (hr.layered.within hholder) (by omega)⟩
  · exact .inl (hpiece _ hw hskeleton)

/-- A lift is not older than itself. -/
theorem not_mem_older {register : Register} (hr : register.Sound) {newer older : List Lifted} {lifted : Lifted}
    (hsplit : register.newestFirst = newer ++ lifted :: older) : lifted ∉ older := by
  have hnodup := hr.nodup
  rw [hsplit, List.map_append, List.map_cons] at hnodup
  have hnumber := (List.nodup_cons.1 (List.nodup_append.1 hnodup).2.1).1
  exact fun hm => hnumber (List.mem_map.2 ⟨lifted, hm, rfl⟩)

/-- What holds the key of a lift is newer than the lift. -/
theorem mem_newer_of_holds {register : Register} (hr : register.Sound) {newer older : List Lifted} {lifted : Lifted}
    (hsplit : register.newestFirst = newer ++ lifted :: older) {holder : Lifted}
    (hholder : holder ∈ register.newestFirst) (hpiece : lifted.piece ∈ holder.value) : holder ∈ newer := by
  have hl := hr.layered
  rw [hsplit] at hl hholder
  rcases List.mem_append.1 hholder with hnewer | hrest
  · exact hnewer
  · rcases List.mem_cons.1 hrest with rfl | hrest'
    · exact absurd (hl.of_append.1 _ hpiece) (not_mem_older hr hsplit)
    · exact absurd (hl.of_append.2.within hrest' _ hpiece) (not_mem_older hr hsplit)

/-- What the key of a lift stands for is written where the tokenized input is written out. -/
theorem infix_expand_tokenize {input : Text} {lifted : Lifted} (hm : lifted ∈ (tokenize input).2.newestFirst) :
    expand [lifted.piece] <:+: expand (tokenize input).1 := by
  have hr := (tokenize_sound input).1
  have hpiece : ∀ (other : Lifted) (q : Passage), other.piece ∈ q → expand [other.piece] <:+: expand q := by
    intro other q ho
    obtain ⟨u, v, rfl⟩ := List.append_of_mem ho
    exact infix_expand ⟨u, v, by simp⟩
  -- from the newest lift to the oldest: what holds the key of a lift is newer
  suffices h : ∀ newer older, (tokenize input).2.newestFirst = newer ++ older → ∀ other ∈ newer,
      expand [other.piece] <:+: expand (tokenize input).1 from h _ [] (by simp) lifted hm
  intro newer
  induction newer using List.reverseRecOn with
  | nil => exact fun older h other ho => by cases ho
  | append_singleton newer last ih =>
    intro older h other ho
    rw [List.append_assoc, List.singleton_append] at h
    rcases List.mem_append.1 ho with ho | ho
    · exact ih _ h other ho
    · obtain rfl := List.mem_singleton.1 ho
      rcases exists_standing (h ▸ List.mem_append_right _ List.mem_cons_self) with hskeleton | ⟨holder, hholder, hheld⟩
      · exact hpiece other _ hskeleton
      · have hnewer := ih _ h holder (mem_newer_of_holds hr h hholder hheld)
        have hvalue : expand holder.value <:+: expand [holder.piece] := infix_expand_value List.mem_cons_self
        exact (hpiece other _ hheld).trans (hvalue.trans hnewer)

end Passage

/-! ## Occurrences in spelled text -/

section Occurrences
variable {α : Type} [DecidableEq α] {word l : List α}

theorem occurrences_nil (hne : word ≠ []) : occurrences word [] = 0 := by
  simp [occurrences, hne]

theorem occurrences_cons (word : List α) (a : α) (l : List α) :
    occurrences word (a :: l) = occurrences word l + if word <+: a :: l then 1 else 0 := by
  simp [occurrences, List.countP_cons]

/-- A word whose first sign does not stand in front occurs behind only. -/
theorem occurrences_append_of_not_mem {a : α} {front : List α} (ha : a ∉ front) (l : List α) :
    occurrences (a :: word) (front ++ l) = occurrences (a :: word) l := by
  induction front with
  | nil => rfl
  | cons b front ih =>
    have hp : ¬ a :: word <+: b :: (front ++ l) := by
      intro hp
      obtain ⟨rfl, -⟩ := List.cons_prefix_cons.1 hp
      simp at ha
    rw [List.cons_append, occurrences_cons, if_neg hp, ih (List.not_mem_of_not_mem_cons ha)]
    rfl

theorem occurrences_eq_zero_iff (hne : word ≠ []) : occurrences word l = 0 ↔ ¬ word <:+: l := by
  induction l with
  | nil => simp [occurrences_nil hne, hne]
  | cons a l ih =>
    rw [occurrences_cons, List.infix_cons_iff]
    by_cases hp : word <+: a :: l
    · simp [hp]
    · simp [hp, ih]

end Occurrences

namespace Passage

/-- Spelled out, a passage has a key where the key was put, and where the characters of
the key are written by hand. -/
theorem occurrences_spell {suffix : Text} (hs : Suffix.IsHex suffix) (n : Nat) (p : Passage) :
    occurrences (Minter.key suffix n) (spell suffix p) =
      keyCount n p + occurrences ((Minter.key suffix n).map some) (p.map Piece.view) := by
  induction p with
  | nil =>
    rw [spell_nil, List.map_nil, occurrences_nil (by simp [Minter.key]), occurrences_nil (by simp [Minter.key])]
    rfl
  | cons piece p ih =>
    cases piece with
    | char c =>
      have hfront : Minter.key suffix n <+: c :: spell suffix p ↔
          (Minter.key suffix n).map some <+: (.char c :: p : Passage).map Piece.view := by
        rw [map_some_prefix_iff]
        constructor
        · intro hp
          rcases eq_of_key_prefix hs (p := .char c :: p) hp with ⟨_, _, _, he⟩ | hrest
          · cases he
          · exact hrest
        · rintro ⟨rest, hrest⟩
          exact ⟨spell suffix rest, by rw [← spell_char_cons, hrest]; simp⟩
      have hcount : keyCount n (.char c :: p) = keyCount n p := by simp [keyCount, Piece.number?]
      rw [spell_char_cons, occurrences_cons, ih, hcount, List.map_cons, occurrences_cons, ← List.map_cons]
      simp only [hfront]
      omega
    | key number tier value =>
      have hx : 'x' ∉ Text.ofNat number ++ '_' :: suffix := by
        simp [x_not_mem_ofNat, x_not_mem_suffix hs]
      have hfront : Minter.key suffix n <+: 'x' :: ((Text.ofNat number ++ '_' :: suffix) ++ spell suffix p) ↔
          number = n := by
        constructor
        · exact fun hp => (eq_of_prefix_key (m := number) hp).symm
        · rintro rfl
          exact ⟨spell suffix p, rfl⟩
      have hskip : occurrences (Minter.key suffix n) ((Text.ofNat number ++ '_' :: suffix) ++ spell suffix p) =
          occurrences (Minter.key suffix n) (spell suffix p) := occurrences_append_of_not_mem hx _
      have hview : ¬ (Minter.key suffix n).map some <+: none :: p.map Piece.view := by
        simp [Minter.key, List.cons_prefix_cons]
      have hcount : keyCount n (.key number tier value :: p) = keyCount n p + if number = n then 1 else 0 := by
        simp [keyCount, Piece.number?, List.countP_cons]
      have hspell : spell suffix (.key number tier value :: p) =
          'x' :: ((Text.ofNat number ++ '_' :: suffix) ++ spell suffix p) := rfl
      rw [hspell, occurrences_cons, hskip, ih, hcount, List.map_cons, Piece.view, occurrences_cons, if_neg hview]
      simp only [hfront]
      omega

/-- A key that is written in a passage by hand is written where the passage is written out. -/
theorem infix_expand_of_view {word : Text} {p : Passage} (h : word.map some <:+: p.map Piece.view) :
    word <:+: expand p := by
  obtain ⟨u, v, huv⟩ := h
  obtain ⟨front, rest, rfl, hfront, -⟩ := List.map_eq_append_iff.1 huv.symm
  obtain ⟨before, middle, rfl, -, hmiddle⟩ := List.map_eq_append_iff.1 hfront
  obtain rfl := eq_ofText_of_map_view hmiddle
  exact ⟨expand before, expand rest, by simp⟩

end Passage

end FilterQuery
