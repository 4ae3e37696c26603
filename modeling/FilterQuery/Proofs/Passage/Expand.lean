import FilterQuery.Proofs.Passage.Register
import Mathlib.Data.List.Nodup
/-!
# Expanding passages

`Passage.expand` writes a passage out with every key as what it stands for, a group
in its parentheses again. Rewriting changes nothing in it but blanks, which is
`Passage.expand_tokenize`.

A passage is fresh for a suffix if no key of the suffix occurs in it once it is
written out. In the spelling of such a passage every key is one of its own, so that
`Register.resolve?_spell` follows a spelled passage through the table as
`Passage.unwrap` follows it through its keys.
-/

namespace FilterQuery

/-- What a lift of the tier stood for in the text, given what it stores. -/
def Tier.wrap : Tier → Text → Text
  | group, content => '(' :: content ++ [')']
  | _, content => content

mutual

/-- A piece with its key written out. -/
def Piece.expand : Piece → Text
  | .char c => [c]
  | .key _ tier value => tier.wrap (Passage.expand value)

/-- A passage with all keys written out. -/
def Passage.expand : List Piece → Text
  | [] => []
  | piece :: p => piece.expand ++ Passage.expand p

end

namespace Passage

@[simp]
theorem expand_nil : expand [] = [] := by rw [expand]

@[simp]
theorem expand_cons (piece : Piece) (p : Passage) : expand (piece :: p) = piece.expand ++ expand p := by
  rw [expand]

@[simp]
theorem expand_char (c : Char) : (Piece.char c).expand = [c] := by rw [Piece.expand]

@[simp]
theorem expand_key (number : Nat) (tier : Tier) (value : Passage) :
    (Piece.key number tier value).expand = tier.wrap (expand value) := by rw [Piece.expand]

@[simp]
theorem expand_append (p q : Passage) : expand (p ++ q) = expand p ++ expand q := by
  induction p with
  | nil => simp
  | cons piece p ih => simp [ih]

@[simp]
theorem expand_ofText (text : Text) : expand (ofText text) = text := by
  induction text with
  | nil => simp [ofText]
  | cons c text ih => simpa [ofText] using ih

theorem infix_expand {p q : Passage} (h : q <:+: p) : expand q <:+: expand p := by
  obtain ⟨u, v, rfl⟩ := h
  exact ⟨expand u, expand v, by simp⟩

/-- What a key stands for is written where the key is written out. -/
theorem infix_expand_value {p value : Passage} {number : Nat} {tier : Tier} (hm : .key number tier value ∈ p) :
    expand value <:+: expand p := by
  obtain ⟨u, v, rfl⟩ := List.append_of_mem hm
  have hv : expand value <:+: tier.wrap (expand value) := by
    cases tier with
    | group => exact ⟨['('], [')'], rfl⟩
    | _ => exact List.infix_rfl
  exact hv.trans ⟨expand u, expand v, by simp⟩

theorem dropBlanks_expand_dropBlanks (p : Passage) : (expand p.dropBlanks).dropBlanks = (expand p).dropBlanks := by
  induction p with
  | nil => rfl
  | cons piece p ih =>
    cases hb : piece.isBlank with
    | true =>
      cases piece with
      | char c =>
        have hc : isBlank c = true := by simpa [Piece.isBlank, Piece.view] using hb
        have hdrop : dropBlanks (.char c :: p) = dropBlanks p := by simp [dropBlanks, hb]
        rw [hdrop, ih]
        simp [Text.dropBlanks, hc]
      | key => cases hb
    | false =>
      have hdrop : dropBlanks (piece :: p) = piece :: dropBlanks p := by simp [dropBlanks, hb]
      rw [hdrop, expand_cons, expand_cons, Text.dropBlanks_append, Text.dropBlanks_append, ih]

theorem dropBlanks_wrap (tier : Tier) {s t : Text} (h : s.dropBlanks = t.dropBlanks) :
    (tier.wrap s).dropBlanks = (tier.wrap t).dropBlanks := by
  cases tier with
  | group =>
    rw [Tier.wrap, Tier.wrap, List.cons_append, List.cons_append, ← List.singleton_append,
      Text.dropBlanks_append, Text.dropBlanks_append, h, ← Text.dropBlanks_append, ← Text.dropBlanks_append]
    rfl
  | _ => exact h

/-- A group is its content in parentheses. -/
theorem expand_of_group {l part after : Passage} (h : Tier.group.front? Piece.view l = some (part, after)) :
    expand part = Tier.group.wrap (expand (interior part)) := by
  obtain ⟨a, inner, b, rfl, ha, hb, -, -⟩ := Tier.eq_of_front?_group h
  cases a with
  | key => cases ha
  | char c =>
    cases b with
    | key => cases hb
    | char d =>
      obtain rfl := Option.some.inj ha
      obtain rfl := Option.some.inj hb
      simp [interior, Tier.wrap]

/-- A lift that stands for the part that was cut out keeps what is written. -/
theorem dropBlanks_expand_replace {cut : Cut Piece} {lifted : Lifted}
    (h : lifted.piece.expand.dropBlanks = (expand cut.part).dropBlanks) :
    (expand (cut.replace lifted)).dropBlanks =
      (expand (cut.before ++ cut.part ++ cut.after)).dropBlanks := by
  simp only [Cut.replace, expand_append, expand_cons, Text.dropBlanks_append, h, List.append_assoc]

/-- Rewriting keeps what is written, up to blanks. -/
theorem dropBlanks_expand_rewrite (tiers : List Tier) (register : Register) (p : Passage) :
    (expand (rewrite tiers register p).1).dropBlanks = (expand p).dropBlanks := by
  induction tiers, register, p using rewrite_induction with
  | done register p => rw [rewrite_nil]
  | pass tier tiers register p h ih => rw [rewrite_pass h, ih]
  | lift tier tiers register p cut h hg ih =>
    rw [rewrite_lift h hg, ih, (Tier.append_of_search? h).1]
    apply dropBlanks_expand_replace
    rw [Lifted.piece, expand_key]
    cases tier with
    | group => exact absurd rfl hg
    | literal quote => rfl
    | comparison symbol => exact dropBlanks_expand_dropBlanks cut.part
    | conjunction => exact dropBlanks_expand_dropBlanks cut.part
  | group tiers register p cut h ihc ih =>
    obtain ⟨hp, hf⟩ := Tier.append_of_search? h
    rw [rewrite_group h, ih, hp]
    apply dropBlanks_expand_replace
    have hcontent : (expand (liftGroup register cut.part).value).dropBlanks =
        (expand (interior cut.part)).dropBlanks := by
      rw [← ihc]
      exact dropBlanks_expand_dropBlanks _
    rw [Lifted.piece, expand_key, expand_of_group hf]
    exact dropBlanks_wrap .group hcontent

theorem dropBlanks_expand_tokenize (input : Text) :
    (expand (tokenize input).1).dropBlanks = input.dropBlanks := by
  rw [tokenize, dropBlanks_expand_rewrite, expand_ofText]

/-! ## Fresh suffixes -/

/-- No key of the suffix occurs in the passage written out. -/
def Fresh (suffix : Text) (p : Passage) : Prop := ∀ n, ¬ Minter.key suffix n <:+: expand p

theorem Fresh.mono {suffix : Text} {p q : Passage} (h : Fresh suffix p) (hq : q <:+: p) : Fresh suffix q :=
  fun n hn => h n (hn.trans (infix_expand hq))

theorem Fresh.value {suffix : Text} {p value : Passage} {number : Nat} {tier : Tier} (h : Fresh suffix p)
    (hm : .key number tier value ∈ p) : Fresh suffix value :=
  fun n hn => h n (hn.trans (infix_expand_value hm))

theorem fresh_of_dropBlanks {suffix : Text} (hs : Suffix.IsHex suffix) {p : Passage}
    (h : ∀ n, ¬ Minter.key suffix n <:+: (expand p).dropBlanks) : Fresh suffix p := by
  intro n hn
  apply h n
  rw [← dropBlanks_key hs n]
  exact hn.filter _

theorem x_not_mem_ofNat (n : Nat) : 'x' ∉ Text.ofNat n :=
  fun h => absurd (Nat.isDigit_of_mem_toDigits (by decide) (by decide) h) (by decide)

theorem x_not_mem_suffix {suffix : Text} (hs : Suffix.IsHex suffix) : 'x' ∉ suffix :=
  fun h => absurd (List.all_eq_true.1 hs 'x' h) (by decide)

/-- Where the spelling of a passage goes on with a key, the passage goes on with the key
or with its characters. -/
theorem eq_of_key_prefix {suffix : Text} (hs : Suffix.IsHex suffix) {p : Passage} {n : Nat}
    (hp : Minter.key suffix n <+: spell suffix p) :
    (∃ tier value rest, p = .key n tier value :: rest) ∨ ∃ rest, p = ofText (Minter.key suffix n) ++ rest := by
  rcases p with _ | ⟨c | ⟨number, tier, value⟩, p⟩
  · simp [Minter.key] at hp
  · obtain ⟨rest, hrest⟩ := hp
    obtain ⟨rfl, ht⟩ := List.cons.inj (hrest : Minter.key suffix n ++ rest = c :: spell suffix p)
    have hx : 'x' ∉ Text.ofNat n ++ '_' :: suffix := by
      simp [x_not_mem_ofNat, x_not_mem_suffix hs]
    obtain ⟨q, rfl, -⟩ := eq_append_of_spell_eq_append hx ht.symm
    exact .inr ⟨q, rfl⟩
  · rw [spell_key_cons] at hp
    obtain rfl := eq_of_prefix_key hp
    exact .inl ⟨tier, value, p, rfl⟩

/-- Where the spelling of a passage goes on with a key that is not written in it, the
passage goes on with the key. -/
theorem eq_key_of_prefix {suffix : Text} (hs : Suffix.IsHex suffix) {p : Passage} {n : Nat}
    (h : ¬ Minter.key suffix n <:+: expand p) (hp : Minter.key suffix n <+: spell suffix p) :
    ∃ tier value rest, p = .key n tier value :: rest := by
  rcases eq_of_key_prefix hs hp with hkey | ⟨rest, rfl⟩
  · exact hkey
  · exact absurd ⟨[], expand rest, by simp⟩ h

theorem eq_key_of_spell {suffix : Text} (hs : Suffix.IsHex suffix) {p : Passage} {n : Nat}
    (h : ¬ Minter.key suffix n <:+: expand p) (hp : spell suffix p = Minter.key suffix n) :
    ∃ tier value, p = [.key n tier value] := by
  have hprefix : Minter.key suffix n <+: spell suffix p := ⟨[], by simp [hp]⟩
  obtain ⟨tier, value, rest, rfl⟩ := eq_key_of_prefix hs h hprefix
  have hrest : spell suffix rest = [] := by simpa using hp
  obtain rfl := spell_eq_nil_iff.1 hrest
  exact ⟨tier, value, rfl⟩

/-- No key of the lifts occurs in the passage written out. -/
def Clear (suffix : Text) (lifts : List Lifted) (p : Passage) : Prop :=
  ∀ lifted ∈ lifts, ¬ Minter.key suffix lifted.number <:+: expand p

theorem Fresh.clear {suffix : Text} {p : Passage} (h : Fresh suffix p) (lifts : List Lifted) :
    Clear suffix lifts p :=
  fun lifted _ => h lifted.number

theorem Clear.mono {suffix : Text} {lifts : List Lifted} {p q : Passage} (h : Clear suffix lifts p)
    (hq : expand q <:+: expand p) : Clear suffix lifts q :=
  fun lifted hm hn => h lifted hm (hn.trans hq)

/-! ## Keys in the table -/

/-- What a passage that is one key stands for in the end. -/
def unwrap : Passage → Passage
  | [.key _ _ value] => unwrap value
  | p => p
termination_by p => sizeOf p

@[simp]
theorem unwrap_key (number : Nat) (tier : Tier) (value : Passage) :
    unwrap [.key number tier value] = unwrap value := by rw [unwrap]

theorem unwrap_of_ne {p : Passage} (h : ∀ number tier value, p ≠ [.key number tier value]) :
    unwrap p = p := by
  rw [unwrap]
  exact fun number tier value hp => h number tier value hp

/-- All keys of the passage are noted, and none is written in it by hand. -/
structure Known (suffix : Text) (lifts : List Lifted) (p : Passage) : Prop where
  within : Within lifts p
  fresh : Fresh suffix p

theorem Known.mono {suffix : Text} {lifts : List Lifted} {p q : Passage} (h : Known suffix lifts p)
    (hq : q <:+: p) : Known suffix lifts q :=
  ⟨h.within.mono (List.Subset.refl _) hq.subset, h.fresh.mono hq⟩

theorem Layered.of_append {newer older : List Lifted} {lifted : Lifted} (h : Layered (newer ++ lifted :: older)) :
    Within older lifted.value ∧ Layered older := by
  induction newer with
  | nil => exact h
  | cons other newer ih => exact ih h.2

theorem Layered.within {lifts : List Lifted} (hl : Layered lifts) {holder : Lifted} (hm : holder ∈ lifts) :
    Within lifts holder.value := by
  obtain ⟨newer, older, rfl⟩ := List.append_of_mem hm
  refine hl.of_append.1.mono ?_ (List.Subset.refl _)
  exact fun other ho => List.mem_append_right _ (List.mem_cons_of_mem _ ho)

theorem Known.value {suffix : Text} {lifts : List Lifted} (hl : Layered lifts) {p value : Passage}
    {number : Nat} {tier : Tier} (h : Known suffix lifts p) (hm : .key number tier value ∈ p) :
    Known suffix lifts value :=
  ⟨hl.within (h.within ⟨number, tier, value⟩ hm), h.fresh.value hm⟩

theorem Fresh.unwrap {suffix : Text} {p : Passage} (h : Fresh suffix p) : Fresh suffix (unwrap p) := by
  induction p using Passage.unwrap.induct with
  | case1 number tier value ih =>
    rw [unwrap_key]
    exact ih (h.value List.mem_cons_self)
  | case2 p hp => rwa [unwrap_of_ne fun number tier value => hp number tier value]

theorem Known.unwrap {suffix : Text} {lifts : List Lifted} (hl : Layered lifts) {p : Passage}
    (h : Known suffix lifts p) : Known suffix lifts (unwrap p) := by
  induction p using Passage.unwrap.induct with
  | case1 number tier value ih =>
    rw [unwrap_key]
    exact ih (h.value hl List.mem_cons_self)
  | case2 p hp => rwa [unwrap_of_ne fun number tier value => hp number tier value]

/-- The keys in a tokenized input are all its own, if none of the suffix is written in
the input, blanks left out. -/
theorem known_tokenize {suffix : Text} (hs : Suffix.IsHex suffix) {input : Text}
    (h : ∀ n, ¬ Minter.key suffix n <:+: input.dropBlanks) :
    Known suffix (tokenize input).2.newestFirst (tokenize input).1 := by
  refine ⟨(tokenize_sound input).2, fresh_of_dropBlanks hs fun n hn => h n ?_⟩
  rwa [dropBlanks_expand_tokenize] at hn

end Passage

/-- Where the suffix does not occur, no key of it does. -/
theorem Suffix.Admissible.not_infix_key {input suffix : Text} (h : Suffix.Admissible input suffix) (n : Nat) :
    ¬ Minter.key suffix n <:+: input := by
  have hkey : suffix <:+: Minter.key suffix n := ⟨'x' :: Text.ofNat n ++ ['_'], [], by simp [Minter.key]⟩
  exact fun hn => Text.occurs_eq_false_iff.1 h.2.2 (hkey.trans hn)

/-- The table says of every key what was stored for it, if no key was stored twice. -/
theorem Table.get?_of_mem {table : Table} (h : (table.newestFirst.map (·.key)).Nodup) {entry : Entry}
    (hm : entry ∈ table.newestFirst) : table.get? entry.key = some entry.value := by
  obtain ⟨newer, older, hl⟩ := List.append_of_mem hm
  rw [hl, List.map_append, List.map_cons, List.nodup_append] at h
  have hnone : newer.find? (fun other => decide (other.key = entry.key)) = none := by
    rw [List.find?_eq_none]
    intro other ho
    simpa using h.2.2 _ (List.mem_map.2 ⟨other, ho, rfl⟩) _ List.mem_cons_self
  rw [get?, hl, List.find?_append, hnone]
  simp

namespace Register

open Passage

/-- The table of a register when keys have the suffix. -/
def table (suffix : Text) (register : Register) : Table :=
  ⟨register.newestFirst.map fun lifted => (lifted.spell suffix).entry⟩

variable {suffix : Text} {register : Register}

theorem nodup_keys (suffix : Text) (hr : register.Sound) :
    ((register.table suffix).newestFirst.map (·.key)).Nodup := by
  have hkeys : (register.table suffix).newestFirst.map (·.key) =
      (register.newestFirst.map (·.number)).map (Minter.key suffix) := by
    simp only [table, List.map_map]
    rfl
  rw [hkeys]
  refine hr.nodup.map fun m n h => ?_
  have hprefix : Minter.key suffix m <+: Minter.key suffix n ++ [] := ⟨[], congrArg (· ++ []) h⟩
  exact eq_of_prefix_key hprefix

theorem get?_key (hr : register.Sound) {lifted : Lifted} (hm : lifted ∈ register.newestFirst) :
    (register.table suffix).get? (Minter.key suffix lifted.number) = some (Passage.spell suffix lifted.value) :=
  Table.get?_of_mem (nodup_keys suffix hr) (List.mem_map.2 ⟨lifted, hm, rfl⟩)

theorem eq_key_of_get? {text value : Text} (h : (register.table suffix).get? text = some value) :
    ∃ lifted ∈ register.newestFirst, text = Minter.key suffix lifted.number := by
  obtain ⟨entry, he, -⟩ := Option.map_eq_some_iff.1 h
  obtain ⟨lifted, hm, rfl⟩ := List.mem_map.1 (List.mem_of_find?_eq_some he)
  have hkey := List.find?_some he
  exact ⟨lifted, hm, (of_decide_eq_true hkey).symm⟩

/-- A spelled passage that is no single key is not in the table. -/
theorem get?_spell_eq_none (hs : Suffix.IsHex suffix) {p : Passage} (hc : Clear suffix register.newestFirst p)
    (h : ∀ number tier value, p ≠ [.key number tier value]) :
    (register.table suffix).get? (Passage.spell suffix p) = none := by
  cases hg : (register.table suffix).get? (Passage.spell suffix p) with
  | none => rfl
  | some value =>
    obtain ⟨lifted, hm, hk⟩ := eq_key_of_get? hg
    obtain ⟨tier, value, rfl⟩ := eq_key_of_spell hs (hc lifted hm) hk
    exact absurd rfl (h _ _ _)

/-- Following a spelled passage through the table ends at what it stands for. -/
theorem follow?_spell (hs : Suffix.IsHex suffix) (hr : register.Sound) {older : List Lifted} {lookups : Nat}
    (hlen : older.length < lookups) (hl : Layered older) (hsub : older ⊆ register.newestFirst) {p : Passage}
    (hw : Within older p) (hc : Clear suffix register.newestFirst p) :
    (register.table suffix).follow? lookups (Passage.spell suffix p) = some (Passage.spell suffix (unwrap p)) := by
  induction lookups generalizing older p with
  | zero => exact absurd hlen (Nat.not_lt_zero _)
  | succ lookups ih =>
    by_cases hp : ∃ number tier value, p = [.key number tier value]
    · -- what a key stands for has older keys only, so that there are look-ups enough
      obtain ⟨number, tier, value, rfl⟩ := hp
      have hm := hw ⟨number, tier, value⟩ List.mem_cons_self
      obtain ⟨newer, oldest, rfl⟩ := List.append_of_mem hm
      obtain ⟨hv, hl⟩ := hl.of_append
      have hget : (register.table suffix).get? (Passage.spell suffix [.key number tier value]) =
          some (Passage.spell suffix value) := by simpa using get?_key hr (hsub hm)
      have holdest : oldest.length < lookups := by
        simp only [List.length_append, List.length_cons] at hlen
        omega
      rw [Table.follow?, hget, unwrap_key]
      exact ih holdest hl (fun other ho => hsub (List.mem_append_right _ (List.mem_cons_of_mem _ ho))) hv
        (hc.mono (infix_expand_value List.mem_cons_self))
    · have hne : ∀ number tier value, p ≠ [.key number tier value] :=
        fun number tier value he => hp ⟨number, tier, value, he⟩
      rw [Table.follow?, get?_spell_eq_none hs hc hne, unwrap_of_ne hne]

/-- A spelled passage resolves to what it stands for. -/
theorem resolve?_spell (hs : Suffix.IsHex suffix) (hr : register.Sound) {p : Passage}
    (hw : Within register.newestFirst p) (hc : Clear suffix register.newestFirst p) :
    (register.table suffix).resolve? (Passage.spell suffix p) = some (Passage.spell suffix (unwrap p)) := by
  unfold Table.resolve?
  refine follow?_spell hs hr ?_ hr.layered (List.Subset.refl _) hw hc
  simp [Table.size, table]

end Register

theorem Tokenized.table_ofText {suffix : Text} (hs : Suffix.IsHex suffix) (input : Text) :
    (Tokenized.ofText suffix input).table = (Passage.tokenize input).2.table suffix := by
  simp only [ofText_eq hs, table, Register.table, List.map_map]
  rfl

end FilterQuery
