import FilterQuery.Proofs.Forest
/-!
# The suffix is only a name

Which suffix the keys of a tokenization have is of no consequence:
`Tokenized.ofText_renameKeys` says that the tokenizer does with one suffix what it
does with another, up to the names of the keys. Both runs spell one passage and one
register; what is left to show is that a scan for keys finds the keys of a spelled
passage and no others, which is `Passage.renameKeys_spell`.
-/

namespace FilterQuery

namespace Minter

/-- The number of the key that a text begins with. -/
def number? (suffix text : Text) : Option Nat :=
  let number := Nat.ofDigitChars 10 (text.tail.takeWhile Char.isDigit) 0
  if key suffix number <+: text then some number else none

theorem number?_key (suffix : Text) (number : Nat) (text : Text) :
    number? suffix (key suffix number ++ text) = some number := by
  have hdigits : ∀ c ∈ Text.ofNat number, c.isDigit = true :=
    fun c hc => Nat.isDigit_of_mem_toDigits (by decide) (by decide) hc
  have htail : (key suffix number ++ text).tail = Text.ofNat number ++ '_' :: (suffix ++ text) := by
    simp [key]
  have htake : ('_' :: (suffix ++ text)).takeWhile Char.isDigit = [] := by
    simp [show '_'.isDigit = false from rfl]
  have hread : Nat.ofDigitChars 10 (Text.ofNat number) 0 = number := Nat.ofDigitChars_ten_toDigits
  rw [number?, htail, List.takeWhile_append_of_pos hdigits, htake, List.append_nil]
  simp only [hread, List.prefix_append, if_true]

theorem number?_eq_none {suffix text : Text} (h : ∀ number, ¬ key suffix number <+: text) :
    number? suffix text = none := if_neg (h _)

end Minter

namespace Text

/-- The text with every key of the suffix `s` turned into the key of `t` with the same
number, read from the left. The number counts the characters of a key that are still to
be passed over. -/
def renameFrom (s t : Text) : (skip : Nat) → Text → Text
  | _, [] => []
  | skip + 1, _ :: text => renameFrom s t skip text
  | 0, c :: text =>
    match Minter.number? s (c :: text) with
    | some number => Minter.key t number ++ renameFrom s t ((Minter.key s number).length - 1) text
    | none => c :: renameFrom s t 0 text

/-- The text with every key of the suffix `s` turned into the key of `t` with the same
number. -/
def renameKeys (text s t : Text) : Text := renameFrom s t 0 text

theorem renameFrom_skip (s t passed text : Text) :
    renameFrom s t passed.length (passed ++ text) = text.renameKeys s t := by
  induction passed with
  | nil => rfl
  | cons c passed ih => exact ih

theorem renameKeys_nil (s t : Text) : renameKeys [] s t = [] := by
  rw [renameKeys, renameFrom]

theorem renameKeys_key_append (s t : Text) (number : Nat) (text : Text) :
    renameKeys (Minter.key s number ++ text) s t = Minter.key t number ++ text.renameKeys s t := by
  have hnumber := Minter.number?_key s number text
  rw [Minter.key, List.cons_append, List.cons_append] at hnumber
  rw [renameKeys, Minter.key, List.cons_append, List.cons_append, renameFrom, hnumber]
  exact congrArg (Minter.key t number ++ ·) (renameFrom_skip ..)

theorem renameKeys_cons {s text : Text} {c : Char} (h : ∀ number, ¬ Minter.key s number <+: c :: text)
    (t : Text) : renameKeys (c :: text) s t = c :: text.renameKeys s t := by
  rw [renameKeys, renameFrom, Minter.number?_eq_none h]
  rfl

end Text

namespace Entry

/-- The entry with the keys of the suffix `s` turned into keys of `t`. -/
def renameKeys (s t : Text) (entry : Entry) : Entry :=
  ⟨entry.key.renameKeys s t, entry.value.renameKeys s t⟩

end Entry

namespace Passage

/-- Renaming the keys in a spelled passage spells it with the other suffix. -/
theorem renameKeys_spell {s : Text} (hs : Suffix.IsHex s) (t : Text) {p : Passage} (hf : Fresh s p) :
    (spell s p).renameKeys s t = spell t p := by
  induction p with
  | nil => exact Text.renameKeys_nil s t
  | cons piece p ih =>
    have hp := ih (hf.mono (List.suffix_cons piece p).isInfix)
    cases piece with
    | char c =>
      -- a key that begins here would be a key of the passage, which begins with a character
      have hno : ∀ number, ¬ Minter.key s number <+: c :: spell s p := by
        intro number hkey
        obtain ⟨tier, value, rest, he⟩ := eq_key_of_prefix hs (hf number) hkey
        cases he
      rw [spell_char_cons, Text.renameKeys_cons hno, hp, spell_char_cons]
    | key number tier value =>
      rw [spell_key_cons, Text.renameKeys_key_append, hp, spell_key_cons]

end Passage

/-- A noted lift has the same entry with the other suffix, once keys are renamed. -/
theorem Lifted.renameKeys_entry {s : Text} (hs : Suffix.IsHex s) (t : Text) {lifted : Lifted}
    (hf : Passage.Fresh s lifted.value) :
    (lifted.spell s).entry.renameKeys s t = (lifted.spell t).entry := by
  have hkey := Text.renameKeys_key_append s t lifted.number []
  rw [List.append_nil, Text.renameKeys_nil, List.append_nil] at hkey
  have hvalue := Passage.renameKeys_spell hs t hf
  simp only [Lifted.spell, Lift.entry, Entry.renameKeys, hkey, hvalue]

namespace Tokenized

open Passage

/-- The numbers of the keys in the table, in the order of storing, are those of the lifts. -/
theorem keys_ofText {suffix : Text} (hs : Suffix.IsHex suffix) (input : Text) :
    (ofText suffix input).table.toList.map (·.key) =
      ((tokenize input).2.newestFirst.reverse.map (·.number)).map (Minter.key suffix) := by
  rw [toList_table_ofText hs, ← List.map_reverse, List.map_map, List.map_map]
  rfl

/-- The tokenizer does with one suffix what it does with another: the skeleton and the
entries are the same once keys are renamed, and the entries come in the same order under
the same numbers. -/
theorem ofText_renameKeys {input s t : Text} (hs : Suffix.Admissible input.dropBlanks s)
    (ht : Suffix.IsHex t) :
    (ofText t input).skeleton = (ofText s input).skeleton.renameKeys s t ∧
      (ofText t input).table.toList = (ofText s input).table.toList.map (Entry.renameKeys s t) ∧
      ∃ numbers : List Nat, (ofText s input).table.toList.map (·.key) = numbers.map (Minter.key s) ∧
        (ofText t input).table.toList.map (·.key) = numbers.map (Minter.key t) := by
  have hhex : Suffix.IsHex s := hs.2.1
  have hfresh := (known_tokenize hhex hs.not_infix_key).fresh
  refine ⟨?_, ?_, _, keys_ofText hhex input, keys_ofText ht input⟩
  · rw [ofText_eq hhex, ofText_eq ht]
    exact (renameKeys_spell hhex t hfresh).symm
  · rw [toList_table_ofText hhex, toList_table_ofText ht, List.map_reverse, List.map_map]
    refine congrArg List.reverse (List.map_congr_left fun lifted hm => ?_)
    -- what a lift stands for is written somewhere in the input, where no key of `s` is
    have hvalue : expand lifted.value <:+: expand [lifted.piece] := infix_expand_value List.mem_cons_self
    have hlifted : Fresh s lifted.value :=
      fun number hn => hfresh number (hn.trans (hvalue.trans (infix_expand_tokenize hm)))
    exact (lifted.renameKeys_entry hhex t hlifted).symm

theorem ofText_renameKeys_group :
    Suffix.Admissible (Text.dropBlanks "( a = 'x y' ) | x1_0 ~ 1".toList) "f0".toList ∧
      Suffix.IsHex "0abc".toList ∧
      (ofText "0abc".toList "( a = 'x y' ) | x1_0 ~ 1".toList).skeleton =
        (ofText "f0".toList "( a = 'x y' ) | x1_0 ~ 1".toList).skeleton.renameKeys "f0".toList "0abc".toList :=
  by
  have ht : Suffix.IsHex "0abc".toList := by rfl
  exact ⟨by decide, ht, (ofText_renameKeys (by decide) ht).1⟩

end Tokenized

end FilterQuery
