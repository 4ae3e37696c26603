import FilterQuery.Proofs.Passage.Tally
/-!
# The table is a forest

`Tokenized.IsForest` says that the keys of a tokenized filter are the nodes of a forest:
they are numbered without gaps, each stands in one place only, either in the skeleton or
in the value of another key, and the key of that value was stored later. Following keys
so always comes to an end. `Tokenized.isForest_ofText` says that tokenizing gives a
forest whenever the suffix does not occur in the input, blanks left out.
-/

namespace FilterQuery

namespace Tokenized

/-- The skeleton, and all that keys stand for. -/
def texts (tokenized : Tokenized) : List Text :=
  tokenized.skeleton :: tokenized.table.toList.map (·.value)

/-- Keys are numbered without gaps, stand in one place each, and lead to older keys. -/
structure IsForest (suffix : Text) (tokenized : Tokenized) : Prop where
  /-- The stored keys are those of the numbers up to the number of entries, each once. -/
  keys : (tokenized.table.toList.map (·.key)).Perm
    ((List.range' 1 tokenized.table.size).map (Minter.key suffix))
  /-- Looking up a stored key gives what is listed for it. -/
  get? : ∀ entry ∈ tokenized.table.toList, tokenized.table.get? entry.key = some entry.value
  /-- A stored key stands in one place of the skeleton and the stored values. -/
  once : ∀ entry ∈ tokenized.table.toList, (tokenized.texts.map (occurrences entry.key)).sum = 1
  /-- A key that stands in a stored value was stored earlier. -/
  earlier : ∀ before entry after, tokenized.table.toList = before ++ entry :: after →
    ∀ n, Minter.key suffix n <:+: entry.value → Minter.key suffix n ∈ before.map (·.key)
  /-- Following any text through the table comes to an end. -/
  resolve? : ∀ text, (tokenized.table.resolve? text).isSome = true

end Tokenized

namespace Passage

/-! ## The passages of a tokenized input -/

/-- The skeleton of an input, and all that its lifts stand for, in the order of storing. -/
def texts (input : Text) : List Passage :=
  (tokenize input).1 :: (tokenize input).2.newestFirst.reverse.map (·.value)

theorem texts_spell {suffix : Text} (hs : Suffix.IsHex suffix) (input : Text) :
    (Tokenized.ofText suffix input).texts = (texts input).map (spell suffix) := by
  unfold Tokenized.texts texts
  rw [Tokenized.table_ofText hs, Tokenized.ofText_eq hs]
  simp only [Table.toList, Register.table, List.map_cons, List.map_map, ← List.map_reverse]
  rfl

variable {input : Text}

theorem infix_expand_of_mem_texts {q : Passage} (hq : q ∈ texts input) :
    expand q <:+: expand (tokenize input).1 := by
  rcases List.mem_cons.1 hq with rfl | hq
  · exact List.infix_rfl
  · obtain ⟨lifted, hm, rfl⟩ := List.mem_map.1 hq
    have hvalue : expand lifted.value <:+: expand [lifted.piece] := infix_expand_value List.mem_cons_self
    exact hvalue.trans (infix_expand_tokenize (List.mem_reverse.1 hm))

/-- Every key stands in one place of all passages. -/
theorem sum_keyCount_texts {lifted : Lifted} (hm : lifted ∈ (tokenize input).2.newestFirst) :
    ((texts input).map (keyCount lifted.number)).sum = 1 := by
  have hheld : ((tokenize input).2.newestFirst.reverse.map fun other => keyCount lifted.number other.value).sum =
      (tokenize input).2.heldCount lifted.number := by
    rw [List.map_reverse, List.sum_reverse]
    rfl
  have hone := standing_tokenize hm
  simp only [texts, List.map_cons, List.map_map, List.sum_cons, Function.comp_def, hheld]
  exact hone

/-- Where the characters of a key are not written, the key stands where it was put. -/
theorem occurrences_eq_keyCount {suffix : Text} (hs : Suffix.IsHex suffix) {n : Nat}
    (hn : ¬ Minter.key suffix n <:+: expand (tokenize input).1) {q : Passage} (hq : q ∈ texts input) :
    occurrences (Minter.key suffix n) (spell suffix q) = keyCount n q := by
  have hwritten : occurrences ((Minter.key suffix n).map some) (q.map Piece.view) = 0 := by
    rw [occurrences_eq_zero_iff (by simp [Minter.key])]
    exact fun h => hn ((infix_expand_of_view h).trans (infix_expand_of_mem_texts hq))
  rw [occurrences_spell hs, hwritten, Nat.add_zero]

/-- A key that stands where it was put only stands in one place of all texts. -/
theorem sum_occurrences_eq_one {suffix : Text} (hs : Suffix.IsHex suffix) {lifted : Lifted}
    (hm : lifted ∈ (tokenize input).2.newestFirst)
    (hplaced : ∀ q ∈ texts input,
      occurrences (Minter.key suffix lifted.number) (spell suffix q) = keyCount lifted.number q) :
    ((Tokenized.ofText suffix input).texts.map (occurrences (Minter.key suffix lifted.number))).sum = 1 := by
  have hcount : (texts input).map (occurrences (Minter.key suffix lifted.number) ∘ spell suffix) =
      (texts input).map (keyCount lifted.number) := List.map_congr_left hplaced
  rw [texts_spell hs, List.map_map, hcount, sum_keyCount_texts hm]

/-- Where no key is written by hand, following any text comes to an end. -/
theorem isSome_resolve? {suffix : Text} (hs : Suffix.IsHex suffix)
    (hc : Clear suffix (tokenize input).2.newestFirst (tokenize input).1) (text : Text) :
    (((tokenize input).2.table suffix).resolve? text).isSome = true := by
  cases hg : ((tokenize input).2.table suffix).get? text with
  | none => simp only [Table.resolve?, Table.follow?, hg, Option.isSome_some]
  | some value =>
    obtain ⟨lifted, hm, rfl⟩ := Register.eq_key_of_get? hg
    have hw : Within (tokenize input).2.newestFirst [lifted.piece] := by
      intro other ho
      rwa [Lifted.piece_injective (List.mem_singleton.1 ho)]
    have hresolve := Register.resolve?_spell hs (tokenize_sound input).1 hw (hc.mono (infix_expand_tokenize hm))
    have hspell : spell suffix [lifted.piece] = Minter.key suffix lifted.number := by simp [Lifted.piece]
    rw [← hspell, hresolve]
    rfl

/-- A key that stands in what a lift stands for is the key of an older lift. -/
theorem exists_older_of_infix {suffix : Text} (hs : Suffix.IsHex suffix) {n : Nat}
    (hn : ¬ Minter.key suffix n <:+: expand (tokenize input).1) {newer older : List Lifted} {lifted : Lifted}
    (hsplit : (tokenize input).2.newestFirst = newer ++ lifted :: older)
    (hstands : Minter.key suffix n <:+: spell suffix lifted.value) : ∃ other ∈ older, other.number = n := by
  have hq : lifted.value ∈ texts input := by
    refine List.mem_cons_of_mem _ (List.mem_map.2 ⟨lifted, ?_, rfl⟩)
    rw [List.mem_reverse, hsplit]
    exact List.mem_append_right _ List.mem_cons_self
  have hcount : keyCount n lifted.value ≠ 0 := by
    rw [← occurrences_eq_keyCount hs hn hq, ne_eq, occurrences_eq_zero_iff (by simp [Minter.key])]
    exact fun h => h hstands
  obtain ⟨other, hnumber, hpiece⟩ := exists_of_keyCount hcount
  have hl := (tokenize_sound input).1.layered
  rw [hsplit] at hl
  exact ⟨other, hl.of_append.1 other hpiece, hnumber⟩

end Passage

/-! ## The forest -/

namespace Tokenized

open Passage

theorem toList_table_ofText {suffix : Text} (hs : Suffix.IsHex suffix) (input : Text) :
    (ofText suffix input).table.toList =
      ((tokenize input).2.newestFirst.map fun lifted => (lifted.spell suffix).entry).reverse := by
  rw [table_ofText hs]
  rfl

/-- Tokenizing gives a forest. -/
theorem isForest_ofText {input suffix : Text} (h : Suffix.Admissible input.dropBlanks suffix) :
    (ofText suffix input).IsForest suffix := by
  have hs : Suffix.IsHex suffix := h.2.1
  have hr := (tokenize_sound input).1
  have hfresh := (known_tokenize hs h.not_infix_key).fresh
  have hentry : ∀ entry ∈ (ofText suffix input).table.toList,
      ∃ lifted ∈ (tokenize input).2.newestFirst, entry = (lifted.spell suffix).entry := by
    intro entry hm
    rw [toList_table_ofText hs, List.mem_reverse] at hm
    obtain ⟨lifted, hlifted, rfl⟩ := List.mem_map.1 hm
    exact ⟨lifted, hlifted, rfl⟩
  constructor
  case keys =>
    have hsize : (ofText suffix input).table.size = (tokenize input).2.newestFirst.length := by
      rw [Table.size_eq_length_toList, toList_table_ofText hs]
      simp
    have hkeys : (ofText suffix input).table.toList.map (·.key) =
        (((tokenize input).2.newestFirst.map (·.number)).map (Minter.key suffix)).reverse := by
      rw [toList_table_ofText hs, List.map_reverse, List.map_map, List.map_map]
      rfl
    rw [hsize, hkeys]
    exact (List.reverse_perm _).trans ((numbers_perm input).map _)
  case get? =>
    intro entry hm
    obtain ⟨lifted, hlifted, rfl⟩ := hentry entry hm
    rw [table_ofText hs]
    exact Register.get?_key hr hlifted
  case once =>
    intro entry hm
    obtain ⟨lifted, hlifted, rfl⟩ := hentry entry hm
    exact sum_occurrences_eq_one hs hlifted fun q hq => occurrences_eq_keyCount hs (hfresh lifted.number) hq
  case earlier =>
    intro before entry after hsplit n hstands
    -- the list of entries is the list of lifts from the other end
    rw [toList_table_ofText hs, ← List.map_reverse, List.map_eq_append_iff] at hsplit
    obtain ⟨older, rest, hlifts, rfl, hrest⟩ := hsplit
    obtain ⟨lifted, newer, rfl, rfl, rfl⟩ := List.map_eq_cons_iff.1 hrest
    have hnewest : (tokenize input).2.newestFirst = newer.reverse ++ lifted :: older.reverse := by
      rw [← List.reverse_reverse (tokenize input).2.newestFirst, hlifts]
      simp
    obtain ⟨other, ho, rfl⟩ := exists_older_of_infix hs (hfresh n) hnewest hstands
    rw [List.map_map]
    exact List.mem_map.2 ⟨other, List.mem_reverse.1 ho, rfl⟩
  case resolve? =>
    intro text
    rw [table_ofText hs]
    exact isSome_resolve? hs (hfresh.clear _) text

theorem isForest_ofText_nested :
    Suffix.Admissible (Text.dropBlanks "((a = 'x y') & b > 1) | ('p' = 'p')".toList) "f0".toList ∧
      (ofText "f0".toList "((a = 'x y') & b > 1) | ('p' = 'p')".toList).IsForest "f0".toList :=
  ⟨by decide, isForest_ofText (by decide)⟩

end Tokenized

end FilterQuery
