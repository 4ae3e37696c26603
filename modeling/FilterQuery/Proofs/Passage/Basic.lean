import FilterQuery.Proofs.Search
import FilterQuery.Token.Rewrite
import FilterQuery.Token.Suffix
/-!
# Passages

A passage is a text in which keys are whole: a piece is a character, or a key
together with the passage that it stands for. Spelled with a suffix, a passage is
the text that the tokenizer sees, and `Tier.search?_spell` says that a tier finds
the same in both: no tier looks into a key.
-/

namespace FilterQuery

/-- A character, or a key with the tier that minted it and what it stands for. -/
inductive Piece where
  | char (c : Char)
  | key (number : Nat) (tier : Tier) (value : List Piece)

/-- A text whose keys are whole. -/
abbrev Passage := List Piece

namespace Piece

/-- The character of a piece; keys show none. -/
def view : Piece → Option Char
  | char c => some c
  | key .. => none

/-- The text of a piece when keys have the suffix. -/
def spell (suffix : Text) : Piece → Text
  | char c => [c]
  | key number .. => Minter.key suffix number

/-- The piece is a blank character. -/
def isBlank (piece : Piece) : Bool := piece.view.any FilterQuery.isBlank

end Piece

namespace Passage

/-- The passage of a text, without keys. -/
def ofText (text : Text) : Passage := text.map .char

/-- The text of a passage when keys have the suffix. -/
def spell (suffix : Text) (p : Passage) : Text := p.flatMap (Piece.spell suffix)

/-- The passage without its blank characters. -/
def dropBlanks (p : Passage) : Passage := p.filter (! ·.isBlank)

/-- Induction over the pieces of a passage and of all that its keys stand for. -/
theorem induction {motive : Passage → Prop} (nil : motive [])
    (char : ∀ c p, motive p → motive (.char c :: p))
    (key : ∀ number tier value p, motive value → motive p → motive (.key number tier value :: p)) :
    ∀ p, motive p
  | [] => nil
  | .char c :: p => char c p (induction nil char key p)
  | .key number tier value :: p =>
    key number tier value p (induction nil char key value) (induction nil char key p)
termination_by p => sizeOf p

end Passage

/-! ## Suffixes of hexadecimal digits -/

/-- The suffix consists of hexadecimal digits in lower case. -/
def Suffix.IsHex (suffix : Text) : Prop := suffix.all Suffix.isHexDigit = true

/-- The character may stand in a key. -/
def isKeyChar (c : Char) : Bool := c = 'x' || c = '_' || Suffix.isHexDigit c

theorem isKeyChar_of_mem_key {suffix : Text} (hs : Suffix.IsHex suffix) {n : Nat} {c : Char}
    (hc : c ∈ Minter.key suffix n) : isKeyChar c = true := by
  simp only [Minter.key, List.cons_append, List.mem_cons, List.mem_append] at hc
  rcases hc with rfl | hc | rfl | hc
  · rfl
  · have := Nat.isDigit_of_mem_toDigits (by decide) (by decide) hc
    simp [isKeyChar, Suffix.isHexDigit, this]
  · rfl
  · have := List.all_eq_true.1 hs c hc
    simp [isKeyChar, this]

theorem not_mem_key {suffix : Text} (hs : Suffix.IsHex suffix) {c : Char} (hc : isKeyChar c = false) (n : Nat) :
    c ∉ Minter.key suffix n := by
  intro hm
  rw [isKeyChar_of_mem_key hs hm] at hc
  cases hc

theorem Comparison.isKeyChar_of_mem_symbol (symbol : Comparison) : ∀ c ∈ symbol.symbol, isKeyChar c = false := by
  have h : symbol.symbol.all (! isKeyChar ·) = true := by cases symbol <;> rfl
  simpa using h

theorem Comparison.isBlank_of_mem_symbol (symbol : Comparison) : ∀ c ∈ symbol.symbol, isBlank c = false := by
  have h : symbol.symbol.all (! isBlank ·) = true := by cases symbol <;> rfl
  simpa using h

theorem toNat_of_isKeyChar {c : Char} (hc : isKeyChar c = true) :
    c.toNat = 120 ∨ c.toNat = 95 ∨ (48 ≤ c.toNat ∧ c.toNat ≤ 57) ∨ (97 ≤ c.toNat ∧ c.toNat ≤ 102) := by
  simp only [isKeyChar, Suffix.isHexDigit, Char.isDigit, Bool.or_eq_true, Bool.and_eq_true,
    decide_eq_true_eq] at hc
  rcases hc with (rfl | rfl) | hc | hc
  · exact .inl rfl
  · exact .inr (.inl rfl)
  · exact .inr (.inr (.inl hc))
  · exact .inr (.inr (.inr hc))

theorem isBlank_of_isKeyChar {c : Char} (hc : isKeyChar c = true) : isBlank c = false := by
  have hn := toNat_of_isKeyChar hc
  simp only [isBlank, Bool.or_eq_false_iff, Bool.and_eq_false_iff, decide_eq_false_iff_not, beq_eq_false_iff_ne]
  omega

theorem isKeyChar_of_isBlank {c : Char} (hc : isBlank c = true) : isKeyChar c = false := by
  by_contra hkey
  rw [isBlank_of_isKeyChar (eq_true_of_ne_false hkey)] at hc
  cases hc

theorem ofNat_inj {m n : Nat} (h : Text.ofNat m = Text.ofNat n) : m = n := by
  rw [← Nat.ofDigitChars_ten_toDigits (n := m), ← Nat.ofDigitChars_ten_toDigits (n := n)]
  exact congrArg (Nat.ofDigitChars 10 · 0) h

/-- A key that begins a text is the key that the text begins with. -/
theorem eq_of_prefix_key {suffix rest : Text} {m n : Nat}
    (h : Minter.key suffix n <+: Minter.key suffix m ++ rest) : n = m := by
  obtain ⟨t, ht⟩ := h
  simp only [Minter.key, List.cons_append, List.append_assoc, List.cons.injEq, true_and] at ht
  have hdigits : ∀ k : Nat, ∀ c ∈ Text.ofNat k, (c != '_') = true := by
    intro k c hc
    simp only [bne_iff_ne]
    rintro rfl
    exact Nat.underscore_not_in_toDigits hc
  have := congrArg (List.takeWhile (· != '_')) ht
  rw [List.takeWhile_append_of_pos (hdigits n), List.takeWhile_append_of_pos (hdigits m)] at this
  exact ofNat_inj (by simpa using this)

theorem dropBlanks_key {suffix : Text} (hs : Suffix.IsHex suffix) (n : Nat) :
    (Minter.key suffix n).dropBlanks = Minter.key suffix n := by
  refine List.filter_eq_self.2 fun c hc => ?_
  rw [isBlank_of_isKeyChar (isKeyChar_of_mem_key hs hc), Bool.not_false]

/-- A character that no key has parts what keys stand in. -/
theorem key_infix_append_cons {suffix : Text} (hs : Suffix.IsHex suffix) {n : Nat} {c : Char}
    (hc : isKeyChar c = false) {l r : Text} (h : Minter.key suffix n <:+: l ++ c :: r) :
    Minter.key suffix n <:+: l ∨ Minter.key suffix n <:+: r :=
  infix_append_cons (not_mem_key hs hc n) h

theorem key_infix_cons {suffix : Text} (hs : Suffix.IsHex suffix) {n : Nat} {c : Char}
    (hc : isKeyChar c = false) {r : Text} (h : Minter.key suffix n <:+: c :: r) : Minter.key suffix n <:+: r := by
  rcases key_infix_append_cons hs hc (l := []) h with h | h
  · simp [Minter.key] at h
  · exact h

/-! ## Spelling -/

namespace Passage

@[simp]
theorem spell_nil (suffix : Text) : spell suffix [] = [] := rfl

@[simp]
theorem spell_char_cons (suffix : Text) (c : Char) (p : Passage) :
    spell suffix (.char c :: p) = c :: spell suffix p := rfl

@[simp]
theorem spell_key_cons (suffix : Text) (number : Nat) (tier : Tier) (value p : Passage) :
    spell suffix (.key number tier value :: p) = Minter.key suffix number ++ spell suffix p := rfl

@[simp]
theorem spell_append (suffix : Text) (p q : Passage) :
    spell suffix (p ++ q) = spell suffix p ++ spell suffix q := by
  simp [spell]

@[simp]
theorem spell_ofText (suffix text : Text) : spell suffix (ofText text) = text := by
  induction text with
  | nil => rfl
  | cons c text ih => simpa [ofText] using ih

@[simp]
theorem spell_eq_nil_iff {suffix : Text} {p : Passage} : spell suffix p = [] ↔ p = [] := by
  rcases p with _ | ⟨c | _, p⟩ <;> simp [Minter.key]

theorem eq_ofText_of_map_view {p : Passage} {text : Text} (h : p.map Piece.view = text.map some) :
    p = ofText text := by
  induction p generalizing text with
  | nil => simp_all [ofText]
  | cons piece p ih =>
    cases text with
    | nil => cases h
    | cons c text =>
      obtain ⟨hc, ht⟩ := List.cons.inj h
      cases piece with
      | char d =>
        obtain rfl := Option.some.inj hc
        rw [ih ht]
        rfl
      | key => cases hc

/-- A passage shows a word at its front iff it begins with the characters of the word. -/
theorem map_some_prefix_iff {word : Text} {p : Passage} :
    word.map some <+: p.map Piece.view ↔ ∃ rest, p = ofText word ++ rest := by
  constructor
  · rintro ⟨views, h⟩
    obtain ⟨front, rest, rfl, hfront, -⟩ := List.map_eq_append_iff.1 h.symm
    exact ⟨rest, by rw [eq_ofText_of_map_view hfront]⟩
  · rintro ⟨rest, rfl⟩
    exact ⟨rest.map Piece.view, by simp [ofText, Function.comp_def, Piece.view]⟩

theorem mem_map_view_iff {c : Char} {p : Passage} : some c ∈ p.map Piece.view ↔ .char c ∈ p := by
  rw [List.mem_map]
  constructor
  · rintro ⟨d | _, hp, hd⟩
    · exact Option.some.inj hd ▸ hp
    · cases hd
  · exact fun hp => ⟨_, hp, rfl⟩

theorem view_ne_of_not_mem {c : Char} {p : Passage} (h : .char c ∉ p) {a : Piece} (ha : a ∈ p) : a.view ≠ some c :=
  fun hv => h (mem_map_view_iff.1 (List.mem_map.2 ⟨a, ha, hv⟩))

@[simp]
theorem dropBlanks_append (p q : Passage) : dropBlanks (p ++ q) = dropBlanks p ++ dropBlanks q :=
  List.filter_append ..

section Hex
variable {suffix : Text} (hs : Suffix.IsHex suffix)
include hs

theorem mem_spell_iff {c : Char} (hc : isKeyChar c = false) {p : Passage} :
    c ∈ spell suffix p ↔ .char c ∈ p := by
  rw [spell, List.mem_flatMap]
  constructor
  · rintro ⟨_ | ⟨number, tier, value⟩, hp, hm⟩
    · obtain rfl := List.mem_singleton.1 hm
      exact hp
    · exact absurd hm (not_mem_key hs hc number)
  · exact fun hp => ⟨_, hp, List.mem_singleton.2 rfl⟩

theorem dropBlanks_spell (p : Passage) : (spell suffix p).dropBlanks = spell suffix p.dropBlanks := by
  induction p with
  | nil => rfl
  | cons piece p ih =>
    cases piece with
    | char c => cases h : isBlank c <;> simpa [Text.dropBlanks, dropBlanks, Piece.isBlank, Piece.view, h] using ih
    | key number tier value =>
      have hk : (Minter.key suffix number).filter (! isBlank ·) = Minter.key suffix number := dropBlanks_key hs number
      simpa [Text.dropBlanks, dropBlanks, Piece.isBlank, Piece.view, hk] using ih

/-- A test of signs that holds for keys goes through the same pieces when the keys
are spelled out. -/
theorem span_spell {test : Option Char → Bool} (hn : test none = true)
    (hk : ∀ c, isKeyChar c = true → test (some c) = true) (p : Passage) :
    (spell suffix p).takeWhile (fun c => test (some c)) = spell suffix (p.takeWhile fun a => test a.view) ∧
      (spell suffix p).dropWhile (fun c => test (some c)) = spell suffix (p.dropWhile fun a => test a.view) := by
  induction p with
  | nil => simp
  | cons piece p ih =>
    cases piece with
    | char c => cases h : test (some c) <;> simp [Piece.view, h, ih]
    | key number tier value =>
      have hkey : ∀ c ∈ Minter.key suffix number, test (some c) = true :=
        fun c hc => hk c (isKeyChar_of_mem_key hs hc)
      rw [spell_key_cons, List.takeWhile_append_of_pos hkey, List.dropWhile_append_of_pos hkey, ih.1, ih.2]
      simp [Piece.view, hn]

omit hs in
/-- Where a spelled passage goes on without the first character of keys, it goes on
with characters. -/
theorem eq_append_of_spell_eq_append {word : Text} (hw : 'x' ∉ word) {p : Passage} {v : Text}
    (h : spell suffix p = word ++ v) : ∃ pv, p = ofText word ++ pv ∧ spell suffix pv = v := by
  induction word generalizing p with
  | nil => exact ⟨p, rfl, h⟩
  | cons c word ih =>
    rcases p with _ | ⟨d | ⟨number, tier, value⟩, p⟩
    · cases h
    · obtain ⟨rfl, ht⟩ := List.cons.inj h
      obtain ⟨pv, rfl, hv⟩ := ih (fun hm => hw (List.mem_cons_of_mem _ hm)) ht
      exact ⟨pv, rfl, hv⟩
    · obtain ⟨rfl, -⟩ := List.cons.inj h
      exact absurd List.mem_cons_self hw

/-- A word without key characters stands in a spelled passage only where the
passage has its characters. -/
theorem eq_append_of_spell_eq {word : Text} (hne : word ≠ []) (hw : ∀ c ∈ word, isKeyChar c = false)
    {p : Passage} {u v : Text} (h : spell suffix p = u ++ (word ++ v)) :
    ∃ pu pv, p = pu ++ ofText word ++ pv ∧ spell suffix pu = u ∧ spell suffix pv = v := by
  induction p generalizing u with
  | nil => simp [hne] at h
  | cons piece p ih =>
    rcases List.append_eq_append_iff.1 (show piece.spell suffix ++ spell suffix p = u ++ (word ++ v) from h)
      with ⟨x, rfl, hp⟩ | ⟨x, hx, hp⟩
    · obtain ⟨pu, pv, rfl, rfl, rfl⟩ := ih hp
      exact ⟨piece :: pu, pv, by simp, rfl, rfl⟩
    · cases u with
      | nil =>
        have hx : 'x' ∉ word := fun hm => absurd (hw _ hm) (by decide)
        obtain ⟨pv, hpv, hv⟩ := eq_append_of_spell_eq_append hx h
        exact ⟨[], pv, hpv, rfl, hv⟩
      | cons d u =>
        -- a piece that the word starts in can only be a key, which has none of its characters
        cases x with
        | nil =>
          obtain ⟨pu, pv, rfl, hu, rfl⟩ := ih (u := []) (by simpa using hp.symm)
          obtain rfl := spell_eq_nil_iff.1 hu
          exact ⟨[piece], pv, by simp, by simpa [spell] using hx, rfl⟩
        | cons e x =>
          obtain ⟨c, word, rfl⟩ := List.exists_cons_of_ne_nil hne
          obtain ⟨rfl, -⟩ := List.cons.inj hp
          cases piece with
          | char f => simp [Piece.spell] at hx
          | key number tier value =>
            have hc : c ∈ Minter.key suffix number := by
              rw [show Minter.key suffix number = _ from hx]
              simp
            exact absurd hc (not_mem_key hs (hw c List.mem_cons_self) number)

end Hex

end Passage

/-! ## Tiers do not look into keys -/

section Hex
variable {suffix : Text} (hs : Suffix.IsHex suffix)
include hs

open Passage (spell)

theorem enclosed?_spell {opening closing : Char} (ho : isKeyChar opening = false)
    (hc : isKeyChar closing = false) (p : Passage) :
    enclosed? some opening closing (spell suffix p) =
      (enclosed? Piece.view opening closing p).map (Prod.map (spell suffix) (spell suffix)) := by
  let test (sign : Option Char) : Bool := sign ≠ some opening ∧ sign ≠ some closing
  have hn : test none = true := by simp [test]
  have hk : ∀ c, isKeyChar c = true → test (some c) = true := by
    intro c h
    simp only [test, ne_eq, Option.some.injEq, decide_eq_true_eq]
    constructor <;> (rintro rfl; simp_all)
  rcases p with _ | ⟨c | ⟨number, tier, value⟩, p⟩
  · rfl
  · obtain ⟨ht, hd⟩ := Passage.span_spell hs hn hk p
    have ht' : (spell suffix p).takeWhile (isInside some opening closing) =
        spell suffix (p.takeWhile (isInside Piece.view opening closing)) := ht
    have hd' : (spell suffix p).dropWhile (isInside some opening closing) =
        spell suffix (p.dropWhile (isInside Piece.view opening closing)) := hd
    rw [Passage.spell_char_cons, enclosed?, enclosed?, hd', ht']
    cases hdw : p.dropWhile (isInside Piece.view opening closing) with
    | nil => rfl
    | cons b after =>
      have hb : isInside Piece.view opening closing b = false := by
        simpa [hdw] using List.head?_dropWhile_not (isInside Piece.view opening closing) p
      cases b with
      | char d =>
        by_cases h : c = opening ∧ d = closing
        · simp [Piece.view, h]
        · simp only [Passage.spell_char_cons, Piece.view, Option.some.injEq, if_neg h, Option.map_none]
      | key => simp [isInside, Piece.view] at hb
  · have hx : 'x' ≠ opening := by
      rintro rfl
      simp [isKeyChar] at ho
    simp only [Passage.spell_key_cons, Minter.key, List.cons_append, enclosed?, Option.some.injEq, hx,
      false_and, if_false, Piece.view, reduceCtorEq]
    cases p.dropWhile (isInside Piece.view opening closing) <;> (split <;> rfl)

theorem accepts_spell (tier : Tier) (p : Passage) :
    tier.accepts ((spell suffix p).map some) = tier.accepts (p.map Piece.view) := by
  cases tier with
  | literal quote => rfl
  | group => rfl
  | comparison symbol =>
    have hw := symbol.isKeyChar_of_mem_symbol
    have hne := symbol.symbol_ne_nil
    rw [Bool.eq_iff_iff, Tier.accepts_comparison_iff, Tier.accepts_comparison_iff]
    constructor
    · rintro ⟨u, w, v, hu, hv, h, hm⟩
      obtain rfl := (Option.some_injective _).list_map hm
      obtain ⟨pu, pv, rfl, rfl, rfl⟩ :=
        Passage.eq_append_of_spell_eq hs hne hw (h.trans (List.append_assoc ..))
      exact ⟨pu, _, pv, by simpa using hu, by simpa using hv, rfl, by simp [Passage.ofText, Piece.view]⟩
    · rintro ⟨pu, w, pv, hu, hv, rfl, hm⟩
      obtain rfl := Passage.eq_ofText_of_map_view hm
      exact ⟨spell suffix pu, symbol.symbol, spell suffix pv, by simpa using hu, by simpa using hv,
        by simp, rfl⟩
  | conjunction =>
    have hm := Passage.mem_spell_iff hs (c := '&') (by decide) (p := p)
    rw [Bool.eq_iff_iff, Tier.accepts_conjunction_iff, Tier.accepts_conjunction_iff,
      List.mem_map_of_injective (Option.some_injective _), hm]
    exact (Passage.mem_map_view_iff).symm

omit hs in
theorem separates_of_isKeyChar {tier : Tier} {c : Char} (hc : isKeyChar c = true) :
    tier.separates (some c) = false := by
  have h : c ≠ '&' ∧ c ≠ '|' := by constructor <;> (rintro rfl; cases hc)
  cases tier <;> simp [Tier.separates, h]

theorem segment?_spell (tier : Tier) (p : Passage) :
    segment? some tier.separates tier.accepts (spell suffix p) =
      (segment? Piece.view tier.separates tier.accepts p).map (Prod.map (spell suffix) (spell suffix)) := by
  let test (sign : Option Char) : Bool := ! tier.separates sign
  have hn : test none = true := by cases tier <;> rfl
  have hk : ∀ c, isKeyChar c = true → test (some c) = true :=
    fun c hc => by simp [test, separates_of_isKeyChar hc]
  obtain ⟨ht, hd⟩ := Passage.span_spell hs hn hk p
  rw [segment?, segment?, ht, hd, accepts_spell hs]
  split <;> rfl

omit hs in
theorem isKeyChar_quote {quote : Char} (ht : Tier.literal quote ∈ Tier.all) : isKeyChar quote = false := by
  simp only [Tier.all, List.mem_cons, Tier.literal.injEq, reduceCtorEq, List.not_mem_nil, or_false] at ht
  rcases ht with rfl | rfl <;> rfl

theorem front?_spell {tier : Tier} (ht : tier ∈ Tier.all) (p : Passage) :
    tier.front? some (spell suffix p) =
      (tier.front? Piece.view p).map (Prod.map (spell suffix) (spell suffix)) := by
  cases tier with
  | literal quote =>
    exact enclosed?_spell hs (isKeyChar_quote ht) (isKeyChar_quote ht) p
  | group =>
    rw [Tier.front?, Tier.front?, enclosed?_spell hs rfl rfl]
    cases h : enclosed? Piece.view '(' ')' p with
    | none => rfl
    | some cut =>
      obtain ⟨part, after⟩ := cut
      obtain ⟨-, a, inner, b, rfl, ha, hb, -⟩ := append_of_enclosed? h
      have hlen : (2 < (spell suffix (a :: inner ++ [b])).length) ↔ 2 < (a :: inner ++ [b]).length := by
        cases a with
        | key => cases ha
        | char c =>
          cases b with
          | key => cases hb
          | char d =>
            have hpos : 0 < (spell suffix inner).length ↔ 0 < inner.length := by
              rw [List.length_pos_iff, List.length_pos_iff, ne_eq, Passage.spell_eq_nil_iff]
            simp only [List.cons_append, Passage.spell_char_cons, Passage.spell_append, List.length_cons,
              List.length_append, Passage.spell_nil, List.length_nil]
            omega
      simp only [Option.map_some, Option.filter_some, Prod.map_apply, decide_eq_true_eq, hlen]
      split <;> rfl
  | comparison symbol => exact segment?_spell hs _ p
  | conjunction => exact segment?_spell hs _ p

omit hs in
/-- A tier takes nothing off a text that begins inside a key, if it takes nothing off
the text that begins with it. -/
theorem front?_of_key {tier : Tier} (ht : tier ∈ Tier.all) {k t : Text} {c : Char}
    (hk : ∀ d ∈ k ++ [c], isKeyChar d = true) (h : tier.front? some (k ++ c :: t) = none) :
    tier.front? some (c :: t) = none := by
  have hc : isKeyChar c = true := hk c (by simp)
  have segment : segment? some tier.separates tier.accepts (k ++ c :: t) = none →
      segment? some tier.separates tier.accepts (c :: t) = none := by
    intro h
    have hk' : ∀ d ∈ k, (! tier.separates (some d)) = true :=
      fun d hd => by simp [separates_of_isKeyChar (hk d (List.mem_append_left _ hd))]
    rw [segment?, List.takeWhile_append_of_pos hk', List.map_append] at h
    rw [segment?, if_neg]
    intro ha
    rw [if_pos (Tier.accepts_mono (List.infix_append_right) ha)] at h
    cases h
  cases tier with
  | literal quote =>
    refine enclosed?_cons_eq_none ?_ t
    intro hq
    rw [Option.some.inj hq, isKeyChar_quote ht] at hc
    cases hc
  | group =>
    have hne : some c ≠ some '(' := by
      rintro h
      obtain rfl := Option.some.inj h
      cases hc
    rw [Tier.front?, enclosed?_cons_eq_none hne]
    rfl
  | comparison symbol => exact segment h
  | conjunction => exact segment h

/-- A tier cuts a spelled passage where it cuts the passage. -/
theorem search?_spell {tier : Tier} (ht : tier ∈ Tier.all) (p : Passage) :
    tier.search? some (spell suffix p) = (tier.search? Piece.view p).map (Cut.map (spell suffix)) := by
  induction p with
  | nil => rfl
  | cons piece p ih =>
    have hfront := front?_spell hs ht (piece :: p)
    rw [Tier.search?_cons]
    cases hf : tier.front? Piece.view (piece :: p) with
    | some cut =>
      rw [hf] at hfront
      exact Tier.search?_of_front? hfront
    | none =>
      rw [hf] at hfront
      cases piece with
      | char c =>
        rw [Passage.spell_char_cons] at hfront ⊢
        rw [Tier.search?_cons, hfront, ih]
        cases tier.search? Piece.view p <;> rfl
      | key number _ value =>
        rw [Passage.spell_key_cons] at hfront ⊢
        rw [Tier.search?_append_of_front?_eq_none, ih]
        · cases tier.search? Piece.view p <;> rfl
        · intro u c v hu
          refine front?_of_key ht (k := u) (fun d hd => isKeyChar_of_mem_key hs (n := number) ?_) ?_
          · rw [hu]
            rcases List.mem_append.1 hd with hd | hd
            · exact List.mem_append_left _ hd
            · exact List.mem_append_right _ (List.mem_singleton.1 hd ▸ List.mem_cons_self)
          · rw [← List.cons_append, ← List.append_assoc, ← hu]
            exact hfront

end Hex

end FilterQuery
