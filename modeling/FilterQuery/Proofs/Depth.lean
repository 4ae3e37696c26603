import FilterQuery.Proofs.Passage.Compile
/-!
# How deep a filter is compiled

Going one level deeper takes a structural character out of an operand: a symbol of a
comparison, a connective, or the bracket of a list. Following keys takes none, and so
costs no level. `Passage.weight` counts the structural characters of a passage written
out; `Passage.weight_lt_of_parts` is what one level takes away, and
`Passage.compileWithin_eq` says that more levels than structural characters make no
difference. `Tokenized.compileAt_ofText_eq` says so of the default ceiling.
-/

namespace FilterQuery

/-- The character splits an operand, or opens a list. -/
def isStructural (c : Char) : Bool := c ∈ ['<', '>', '=', '~', '&', '|', '[']

theorem isBlank_of_isStructural {c : Char} (h : isStructural c = true) : isBlank c = false := by
  simp only [isStructural, List.mem_cons, List.not_mem_nil, or_false, decide_eq_true_eq] at h
  rcases h with rfl | rfl | rfl | rfl | rfl | rfl | rfl <;> rfl

theorem Comparison.exists_isStructural (symbol : Comparison) : ∃ c ∈ symbol.symbol, isStructural c = true := by
  have h : symbol.symbol.any isStructural = true := by cases symbol <;> rfl
  exact List.any_eq_true.1 h

theorem Connective.isStructural_symbol (connective : Connective) : isStructural connective.symbol = true := by
  cases connective <;> rfl

theorem Text.countP_isStructural_dropBlanks (text : Text) :
    text.dropBlanks.countP isStructural = text.countP isStructural := by
  rw [dropBlanks, List.countP_filter]
  congr 1
  funext c
  cases h : isStructural c with
  | false => rfl
  | true => simp [isBlank_of_isStructural h]

namespace Passage

/-- The number of structural characters in a passage written out. -/
def weight (p : Passage) : Nat := (expand p).countP isStructural

@[simp]
theorem weight_append (p q : Passage) : weight (p ++ q) = weight p + weight q := by
  simp [weight]

theorem weight_char_cons (c : Char) (p : Passage) :
    weight (.char c :: p) = weight p + if isStructural c then 1 else 0 := by
  simp [weight, List.countP_cons]

theorem weight_ofText (text : Text) : weight (ofText text) = text.countP isStructural := by
  simp [weight]

/-- Putting what a key stands for in parentheses makes it no heavier. -/
theorem weight_key (number : Nat) (tier : Tier) (value : Passage) :
    weight [.key number tier value] = weight value := by
  have hopening : isStructural '(' = false := rfl
  have hclosing : isStructural ')' = false := rfl
  cases tier <;> simp [weight, Tier.wrap, hopening, hclosing]

theorem weight_le_of_infix {p q : Passage} (h : q <:+: p) : weight q ≤ weight p := by
  obtain ⟨u, v, rfl⟩ := h
  simp only [weight_append]
  omega

theorem weight_unwrap (p : Passage) : weight (unwrap p) = weight p := by
  induction p using unwrap.induct with
  | case1 number tier value ih => rw [unwrap_key, weight_key, ih]
  | case2 p hp => rw [unwrap_of_ne fun number tier value => hp number tier value]

/-! ## Every level takes a structural character away -/

section Parts
variable {p q : Passage}

theorem weight_lt_of_list? {items : List Passage} (h : list? p = some items) (hq : q ∈ items) :
    weight q < weight p := by
  obtain ⟨content, hc, rfl⟩ := Option.map_eq_some_iff.1 h
  have hcontent : weight content < weight p := by
    cases p with
    | nil => cases hc
    | cons piece p =>
      rw [between?] at hc
      split at hc
      · next hview =>
        obtain rfl := Option.some.inj hc
        have hle := weight_le_of_infix (List.dropLast_prefix p).isInfix
        cases piece with
        | key => cases hview.1
        | char c =>
          obtain rfl := Option.some.inj hview.1
          have hbracket : isStructural '[' = true := rfl
          rw [weight_char_cons, if_pos hbracket]
          omega
      · cases hc
  split at hq
  · cases hq
  · have hle := weight_le_of_infix (infix_of_mem_split hq)
    omega

theorem weight_lt_of_operands? {symbol : Comparison} {left right : Passage}
    (h : operands? symbol.symbol p = some (left, right)) : weight left < weight p ∧ weight right < weight p := by
  obtain ⟨rest, rfl, hright⟩ := append_of_operands? h
  have hle := weight_le_of_infix hright
  have hsymbol : 0 < weight (ofText symbol.symbol) := by
    rw [weight_ofText]
    exact List.countP_pos_iff.2 symbol.exists_isStructural
  simp only [weight_append]
  omega

theorem weight_lt_of_comparison? {found : Shape Passage} (h : comparison? p = some found) (hq : q ∈ found.parts) :
    weight q < weight p := by
  obtain ⟨symbol, -, hs⟩ := List.exists_of_findSome?_eq_some h
  obtain ⟨⟨left, right⟩, ho, rfl⟩ := Option.map_eq_some_iff.1 hs
  obtain ⟨hleft, hright⟩ := weight_lt_of_operands? ho
  have hside : q = trim left ∨ q = trim right := by simpa [Shape.parts] using hq
  rcases hside with rfl | rfl
  · have hle := weight_le_of_infix (infix_trim left)
    omega
  · have hle := weight_le_of_infix (infix_trim right)
    omega

theorem weight_lt_of_clauses? {found : Shape Passage} (h : clauses? p = some found) (hq : q ∈ found.parts) :
    weight q < weight p := by
  obtain ⟨connective, hc, rfl⟩ := Option.map_eq_some_iff.1 h
  have hfound := (List.find?_eq_some_iff_append.1 hc).1
  obtain ⟨piece, hm, hview⟩ := List.any_eq_true.1 hfound
  obtain ⟨u, v, rfl⟩ := List.append_of_mem hm
  cases piece with
  | key => simp [Piece.view] at hview
  | char c =>
    obtain rfl : c = connective.symbol := by simpa [Piece.view] using hview
    -- a part stands on one side of the connective
    have hsides : split connective.symbol (u ++ .char connective.symbol :: v) =
        split connective.symbol u ++ split connective.symbol v := by
      apply List.splitOnP_append_cons
      simp [Piece.view]
    have hside : q <:+: u ∨ q <:+: v := by
      rw [Shape.parts, hsides, List.map_append, List.mem_append] at hq
      exact hq.imp infix_of_mem_split infix_of_mem_split
    rw [weight_append, weight_char_cons, if_pos connective.isStructural_symbol]
    rcases hside with hside | hside
    · have hle := weight_le_of_infix hside
      omega
    · have hle := weight_le_of_infix hside
      omega

/-- The parts of a passage are lighter than the passage. -/
theorem weight_lt_of_parts {clock : Instant} (h : q ∈ (shape clock p).parts) : weight q < weight p := by
  have hreads := reads_shape clock p
  generalize shape clock p = found at h hreads
  cases found with
  | list items => exact weight_lt_of_list? hreads h
  | comparison symbol left right => exact weight_lt_of_comparison? hreads h
  | clauses connective parts => exact weight_lt_of_clauses? hreads h
  | _ => cases h

end Parts

/-- More levels than structural characters make no difference. -/
theorem compileWithin_eq (suffix : Text) (clock : Instant) {levels more : Nat} {p : Passage}
    (hlevels : weight p < levels) (hmore : levels ≤ more) :
    compileWithin suffix clock more p = compileWithin suffix clock levels p := by
  induction levels generalizing more p with
  | zero => omega
  | succ levels ih =>
    obtain ⟨more, rfl⟩ := Nat.exists_eq_add_one_of_ne_zero (show more ≠ 0 by omega)
    unfold compileWithin
    apply Shape.node_congr
    intro q hq
    have hlt := weight_lt_of_parts hq
    rw [weight_unwrap] at hlt
    exact ih (by omega) (by omega)

theorem weight_dropBlanks (p : Passage) : weight p.dropBlanks = weight p := by
  rw [weight, weight, ← Text.countP_isStructural_dropBlanks, dropBlanks_expand_dropBlanks,
    Text.countP_isStructural_dropBlanks]

theorem weight_tokenize (input : Text) : weight (tokenize input).1 = input.countP isStructural := by
  rw [weight, ← Text.countP_isStructural_dropBlanks, dropBlanks_expand_tokenize, Text.countP_isStructural_dropBlanks]

end Passage

namespace Tokenized

open Passage

/-- Where a ceiling leaves a level for every structural character, a higher one makes no
difference. -/
theorem compileAt_ofText_of_le {input suffix : Text} (h : Suffix.Admissible input.dropBlanks suffix)
    {ceiling higher : Nat} (hcount : input.countP isStructural ≤ ceiling) (hle : ceiling ≤ higher) (clock : Instant) :
    (ofText suffix input).table.compileAt clock higher 0 (ofText suffix input).skeleton =
      (ofText suffix input).table.compileAt clock ceiling 0 (ofText suffix input).skeleton := by
  have hs : Suffix.IsHex suffix := h.2.1
  have hr := (tokenize_sound input).1
  have hk := known_tokenize hs h.not_infix_key
  have hweight : weight (tokenize input).1 < ceiling + 1 := by
    rw [weight_tokenize]
    omega
  rw [table_ofText hs, ofText_eq hs]
  unfold Table.compileAt
  rw [Register.compileWithin_spell hs hr clock _ hk, Register.compileWithin_spell hs hr clock _ hk]
  exact compileWithin_eq suffix clock hweight (by omega)

/-- The default ceiling makes no difference to an input with as few structural
characters as it leaves levels. -/
theorem compileAt_ofText_eq {input suffix : Text} (h : Suffix.Admissible input.dropBlanks suffix)
    (hcount : input.countP isStructural ≤ defaultCeiling) {ceiling : Nat} (hle : defaultCeiling ≤ ceiling)
    (clock : Instant) :
    (ofText suffix input).table.compileAt clock ceiling 0 (ofText suffix input).skeleton =
      (ofText suffix input).table.compileAt clock defaultCeiling 0 (ofText suffix input).skeleton :=
  compileAt_ofText_of_le h hcount hle clock

theorem compileAt_ofText_eq_malformed :
    let input := "((a >= [1, '&']) & (b = | ~* c) x".toList
    Suffix.Admissible (Text.dropBlanks input) "f0".toList ∧ input.countP isStructural = 8 ∧
      ∀ clock, (ofText "f0".toList input).table.compileAt clock 1000 0 (ofText "f0".toList input).skeleton =
        (ofText "f0".toList input).table.compileAt clock defaultCeiling 0 (ofText "f0".toList input).skeleton :=
  ⟨by decide, by decide, compileAt_ofText_eq (by decide) (by decide) (by decide)⟩

end Tokenized

end FilterQuery
