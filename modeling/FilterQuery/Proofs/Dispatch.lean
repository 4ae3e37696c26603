import FilterQuery.Proofs.Grammar
import FilterQuery.Proofs.Passage.Form
import FilterQuery.Proofs.WellFormed
/-!
# The comparison that was written

Symbols of comparisons are parts of one another, and the compiler takes the first one in order
that occurs anywhere in a text. Operands have no character of a symbol in them and are not
blank, so what occurs of symbols in a text of operands with one symbol between them occurs in
that symbol: `Joined.infix_symbol`. Hence the text is split at the symbol that was written, and
`Table.compileAt_joined` says what it compiles to.
-/

namespace FilterQuery

namespace Text

theorem trim_blanks_append {blanks : Text} (h : ∀ c ∈ blanks, isBlank c = true) (text : Text) :
    trim (blanks ++ text) = trim text := by
  rw [trim, trim, List.dropWhile_append_of_pos h]

theorem trim_append_blanks {blanks : Text} (h : ∀ c ∈ blanks, isBlank c = true) (text : Text) :
    trim (text ++ blanks) = trim text := by
  rw [trim, trimEnd, reverse_dropWhile_append h, trim, trimEnd]

end Text

namespace Shape

theorem between?_eq_none {first last : Char} {text : Text} (h : first ∉ text) : between? first last text = none := by
  cases text with
  | nil => rfl
  | cons c text =>
    rw [between?, if_neg]
    rintro ⟨rfl, -⟩
    exact h List.mem_cons_self

end Shape

/-! ## Operands with a symbol between them -/

/-- The characters of the symbols of comparisons. -/
def symbolChars : List Char := ['<', '>', '=', '!', '~', '*']

theorem Comparison.symbol_subset (symbol : Comparison) : symbol.symbol ⊆ symbolChars := by
  cases symbol <;> decide

/-- A text that stands for itself on a side of a comparison: there is more to it than blanks, and
no quote, bracket or character of a symbol is in it. -/
structure IsSide (text : Text) : Prop where
  trim_ne_nil : text.trim ≠ []
  plain : ∀ c ∈ text, c ∉ ['\'', '"', '[', ']'] ++ symbolChars

/-- The text consists of the operands with the symbol between them, and blanks around each
symbol. -/
inductive Joined (symbol : Text) : (operands : List Text) → (text : Text) → Prop
  | last (operand : Text) : Joined symbol [operand] operand
  | more {operand before after text : Text} {operands : List Text} (hbefore : ∀ c ∈ before, isBlank c = true)
      (hafter : ∀ c ∈ after, isBlank c = true) (h : Joined symbol operands text) :
      Joined symbol (operand :: operands) (operand ++ before ++ symbol ++ (after ++ text))

theorem IsSide.ne_nil {text : Text} (h : IsSide text) : text ≠ [] := by
  rintro rfl
  exact h.trim_ne_nil rfl

theorem not_mem_symbolChars_of_isBlank {c : Char} (h : isBlank c = true) : c ∉ symbolChars := by
  intro hm
  have hplain : symbolChars.all (fun c => ! isBlank c) = true := by decide
  have hc := List.all_eq_true.1 hplain c hm
  rw [h] at hc
  cases hc

namespace Joined

variable {symbol text : Text} {operands : List Text} (h : Joined symbol operands text)
  (hsides : ∀ operand ∈ operands, IsSide operand)
include h hsides

/-- A text of operands begins with one of them. -/
theorem exists_head : ∃ c rest, text = c :: rest ∧ c ∉ symbolChars := by
  have hfirst : ∀ {operand : Text}, IsSide operand → ∀ rest, ∃ c rest', operand ++ rest = c :: rest' ∧
      c ∉ symbolChars := by
    intro operand hside rest
    obtain ⟨c, operand, rfl⟩ := List.exists_cons_of_ne_nil hside.ne_nil
    exact ⟨c, operand ++ rest, rfl, fun hm => hside.plain c List.mem_cons_self (List.mem_append_right _ hm)⟩
  cases h with
  | last =>
    have hside := hfirst (hsides _ List.mem_cons_self) []
    rwa [List.append_nil] at hside
  | more hbefore hafter h =>
    simp only [List.append_assoc]
    exact hfirst (hsides _ List.mem_cons_self) _

/-- Of a symbol nothing occurs but in the symbol that is written. -/
theorem infix_symbol {word : Text} (hne : word ≠ []) (hword : word ⊆ symbolChars) (hw : word <:+: text) :
    word <:+: symbol := by
  have hside : ∀ {operand : Text}, IsSide operand → ∀ c ∈ word, c ∉ operand := fun hside c hc hm =>
    hside.plain c hm (List.mem_append_right _ (hword hc))
  have hblank : ∀ {blanks : Text}, (∀ c ∈ blanks, isBlank c = true) → ∀ c ∈ word, c ∉ blanks := fun hblanks c hc hm =>
    not_mem_symbolChars_of_isBlank (hblanks c hm) (hword hc)
  induction h with
  | last operand =>
    obtain ⟨c, hc⟩ := List.exists_mem_of_ne_nil word hne
    exact absurd (hw.subset hc) (hside (hsides operand List.mem_cons_self) c hc)
  | @more operand before after text operands hbefore hafter h ih =>
    have hrest : ∀ operand ∈ operands, IsSide operand := fun other hm => hsides other (List.mem_cons_of_mem _ hm)
    -- the word cannot reach over the character behind the symbol
    obtain ⟨c, rest, hcons, hc⟩ : ∃ c rest, after ++ text = c :: rest ∧ c ∉ symbolChars := by
      cases after with
      | nil => exact exists_head h hrest
      | cons c after =>
        exact ⟨c, after ++ text, rfl, not_mem_symbolChars_of_isBlank (hafter c List.mem_cons_self)⟩
    rw [hcons] at hw
    rcases infix_append_cons (fun hm => hc (hword hm)) hw with hw | hw
    · have hleft : ∀ c ∈ word, c ∉ operand ++ before := fun c hm hmem =>
        (List.mem_append.1 hmem).elim (hside (hsides operand List.mem_cons_self) c hm) (hblank hbefore c hm)
      rw [← List.append_nil (operand ++ before ++ symbol)] at hw
      exact infix_of_infix_append hne hleft (fun _ _ => List.not_mem_nil) hw
    · have hbehind : word <:+: after ++ text ++ [] := by
        rw [List.append_nil, hcons]
        exact hw.trans (List.suffix_cons c rest).isInfix
      exact ih hrest (infix_of_infix_append hne (hblank hafter) (fun _ _ => List.not_mem_nil) hbehind)

end Joined

/-! ## The shape of joined operands -/

namespace Joined

variable {c : Comparison} {left right text : Text} {further : List Text}
  (h : Joined c.symbol (left :: right :: further) text)
  (hsides : ∀ operand ∈ left :: right :: further, IsSide operand)
include h hsides

/-- The symbol is cut at its first two places, and the operand between them is the second. -/
theorem exists_operands : ∃ l r, Text.operands? c.symbol text = some (l, r) ∧ l.trim = left.trim ∧
    r.trim = right.trim := by
  obtain ⟨first, word, hword⟩ := List.exists_cons_of_ne_nil c.symbol_ne_nil
  have hfirst : first ∈ symbolChars := c.symbol_subset (hword ▸ List.mem_cons_self)
  -- no blank and no operand has the first character of the symbol in it
  have hfree : ∀ {operand blanks : Text}, IsSide operand → (∀ d ∈ blanks, isBlank d = true) →
      first ∉ operand ++ blanks := fun hside hblanks hm =>
    (List.mem_append.1 hm).elim (fun hm => hside.plain first hm (List.mem_append_right _ hfirst))
      fun hm => not_mem_symbolChars_of_isBlank (hblanks first hm) hfirst
  have hcut : ∀ {front : Text} (rest : Text), first ∉ front →
      Text.cut? c.symbol (front ++ c.symbol ++ rest) = some (front, rest) := by
    intro front rest hfront
    rw [hword, List.append_assoc, Passage.cut?_append_of_not_mem hfront, Text.cut?_append_self]
    simp only [Option.map_some, List.append_nil]
  have hleft : IsSide left := hsides left List.mem_cons_self
  have hright : IsSide right := hsides right (List.mem_cons_of_mem _ List.mem_cons_self)
  cases h with
  | @more _ before after rest _ hbefore hafter hrest =>
    have htrim : (left ++ before).trim = left.trim := Text.trim_append_blanks hbefore left
    rw [Text.operands?, hcut _ (hfree hleft hbefore), Option.map_some]
    refine ⟨_, _, rfl, htrim, ?_⟩
    cases hrest with
    | last =>
      have hnone : Text.cut? c.symbol (after ++ right) = none := by
        rw [Text.cut?_eq_none_iff]
        intro hw
        rcases List.mem_append.1 (hw.subset (hword ▸ List.mem_cons_self)) with hm | hm
        · exact not_mem_symbolChars_of_isBlank (hafter first hm) hfirst
        · exact hright.plain first hm (List.mem_append_right _ hfirst)
      rw [hnone]
      exact Text.trim_blanks_append hafter right
    | @more _ before' after' rest' _ hbefore' hafter' hrest' =>
      have hmiddle : first ∉ after ++ (right ++ before') := by
        rw [List.mem_append, not_or]
        exact ⟨fun hm => not_mem_symbolChars_of_isBlank (hafter first hm) hfirst, hfree hright hbefore'⟩
      have hsplit : after ++ (right ++ before' ++ c.symbol ++ (after' ++ rest')) =
          after ++ (right ++ before') ++ c.symbol ++ (after' ++ rest') := by
        simp only [List.append_assoc]
      rw [hsplit, hcut _ hmiddle]
      exact (Text.trim_blanks_append hafter _).trans (Text.trim_append_blanks hbefore' right)

/-- The comparison that is found is the one that was written. -/
theorem comparison?_eq_some : Shape.comparison? text = some (.comparison c left.trim right.trim) := by
  obtain ⟨l, r, hoperands, hl, hr⟩ := h.exists_operands hsides
  obtain ⟨-, earlier, later, hall, hearlier⟩ := List.find?_eq_some_iff_append.1 c.find?_infix
  refine List.findSome?_eq_some_iff.2 ⟨earlier, c, later, hall, ?_, fun other ho => ?_⟩
  · rw [hoperands, ← hl, ← hr]
    rfl
  · -- a symbol that is tried before is no part of the one that was written
    have hno : ¬ other.symbol <:+: c.symbol := by simpa using hearlier other ho
    have hcut : Text.cut? other.symbol text = none :=
      Text.cut?_eq_none_iff.2 (mt (h.infix_symbol hsides other.symbol_ne_nil other.symbol_subset) hno)
    rw [Text.operands?, hcut]
    rfl

omit hsides in
theorem symbol_infix : c.symbol <:+: text := by
  cases h with
  | more => exact List.infix_append _ _ _

/-- No delimiter of a literal or a list is in the text. -/
theorem not_mem_delimiter {d : Char} (hd : d ∈ ['\'', '"', '[', ']']) : d ∉ text := by
  have hsigns : ['\'', '"', '[', ']'].all (fun d => ! isBlank d && ! symbolChars.contains d) = true := by decide
  have hsign := List.all_eq_true.1 hsigns d hd
  simp only [Bool.and_eq_true, Bool.not_eq_true', List.contains_eq_mem, decide_eq_false_iff_not] at hsign
  have hblank : ∀ {blanks : Text}, (∀ e ∈ blanks, isBlank e = true) → d ∉ blanks := fun hblanks hm => by
    simp [hblanks d hm] at hsign
  have hside : ∀ {operand : Text}, IsSide operand → d ∉ operand := fun hoperand hm =>
    hoperand.plain d hm (List.mem_append_left _ hd)
  generalize left :: right :: further = operands at h hsides
  induction h with
  | last operand => exact hside (hsides operand List.mem_cons_self)
  | @more operand before after text operands hbefore hafter h ih =>
    have hrest := ih fun other hm => hsides other (List.mem_cons_of_mem _ hm)
    have hsymbol : d ∉ c.symbol := fun hm => hsign.2 (c.symbol_subset hm)
    simp only [List.mem_append, not_or]
    exact ⟨⟨⟨hside (hsides operand List.mem_cons_self), hblank hbefore⟩, hsymbol⟩, hblank hafter, hrest⟩

/-- Joined operands are a comparison of the first two. -/
theorem shape_eq (clock : Instant) : Shape.ofText clock text = .comparison c left.trim right.trim := by
  obtain ⟨first, word, hword⟩ := List.exists_cons_of_ne_nil c.symbol_ne_nil
  have hm : first ∈ text := h.symbol_infix.subset (hword ▸ List.mem_cons_self)
  have hfirst : first ∉ "null".toList ∧ isOffsetChar first = false := by
    cases c <;> (obtain ⟨rfl, -⟩ := List.cons.inj hword; decide)
  have hnull : text ≠ "null".toList := fun he => hfirst.1 (he ▸ hm)
  have hquoted : Shape.quoted? text = none := by
    rw [Shape.quoted?, Shape.between?_eq_none (h.not_mem_delimiter hsides (by decide)),
      Shape.between?_eq_none (h.not_mem_delimiter hsides (by decide))]
    rfl
  have hlist : Shape.list? text = none := by
    rw [Shape.list?, Shape.between?_eq_none (h.not_mem_delimiter hsides (by decide))]
    rfl
  rw [Shape.ofText, if_neg hnull, Instant.ofRelative?_eq_none hfirst.2 hm, hquoted, hlist,
    h.comparison?_eq_some hsides]
  rfl

end Joined

/-! ## The constraint of the comparison -/

namespace Node

/-- No tree of its own is a membership. -/
theorem WellFormed.ne_membership {node : Node} (h : node.WellFormed) {op : Operator}
    (hop : op ∈ Operator.memberships) (set : Node) : node ≠ ofOperator op set := by
  rintro rfl
  cases h with
  | clauses connective => cases connective <;> exact absurd hop (by decide)

theorem isNonEmptyList_iff {node : Node} : node.isNonEmptyList = true ↔ ∃ items, items ≠ [] ∧ node = .list items := by
  constructor
  · intro h
    cases node with
    | list items =>
      cases items with
      | nil => cases h
      | cons item items => exact ⟨item :: items, List.cons_ne_nil _ _, rfl⟩
    | _ => cases h
  · rintro ⟨items, hne, rfl⟩
    obtain ⟨item, items, rfl⟩ := List.exists_cons_of_ne_nil hne
    rfl

/-- The symbols `=` and `!=` make a set of a list with items, and no other symbol ever does. -/
theorem WellFormed.constraint_eq_membership_iff {value : Node} (h : value.WellFormed) (symbol : Comparison) :
    ((∃ set, symbol.constraint value = ofOperator .isIn set) ↔
        symbol = .equal ∧ ∃ items, items ≠ [] ∧ value = .list items) ∧
      ((∃ set, symbol.constraint value = ofOperator .nin set) ↔
        symbol = .notEqual ∧ ∃ items, items ≠ [] ∧ value = .list items) := by
  have hin : ¬ ∃ set, value = ofOperator .isIn set := fun ⟨set, he⟩ => h.ne_membership (by decide) set he
  have hnin : ¬ ∃ set, value = ofOperator .nin set := fun ⟨set, he⟩ => h.ne_membership (by decide) set he
  have hinj : ∀ {op op' : Operator} {set : Node}, ofOperator op value = ofOperator op' set ↔ op = op' ∧ value = set := by
    intro op op' set
    simp [ofOperator]
  rw [← isNonEmptyList_iff]
  cases hlist : value.isNonEmptyList <;> cases symbol <;> simp [Comparison.constraint, hlist, hin, hnin, hinj]
  all_goals simp [ofOperator]

end Node

namespace Table

/-- Operands with the symbol of a comparison between them compile to that comparison of the first
two, whatever is written behind them, and the list that is compared with makes a set under `=` and
`!=` only. -/
theorem compileAt_joined {table : Table} {c : Comparison} {left right text : Text} {further : List Text}
    (h : Joined c.symbol (left :: right :: further) text)
    (hsides : ∀ operand ∈ left :: right :: further, IsSide operand) (hkey : table.get? text = none)
    (clock : Instant) {ceiling depth : Nat} (hdepth : depth ≤ ceiling) :
    let name := (table.compileAt clock ceiling (depth + 1) left.trim).fieldName
    let value := table.compileAt clock ceiling (depth + 1) right.trim
    table.compileAt clock ceiling depth text = .ofField name (.compared c.symbol value) ∧
      ((∃ set, Node.compared c.symbol value = .ofOperator .isIn set) ↔
        c = .equal ∧ ∃ items, items ≠ [] ∧ value = .list items) ∧
      ((∃ set, Node.compared c.symbol value = .ofOperator .nin set) ↔
        c = .notEqual ∧ ∃ items, items ≠ [] ∧ value = .list items) := by
  intro name value
  have hlevels : ceiling + 1 - depth = ceiling + 1 - (depth + 1) + 1 := by omega
  have hresolve : table.resolve? text = some text := by
    rw [resolve?, follow?, hkey]
  rw [← c.constraint_eq_compared]
  refine ⟨?_, (table.wellFormed_compileWithin clock _ _).constraint_eq_membership_iff c⟩
  rw [compileAt, hlevels, compileWithin, hresolve]
  show (Shape.ofText clock text).node id _ = _
  rw [h.shape_eq hsides]
  rfl

/-- A stored list is compared with, and what stands behind it is left out. -/
theorem compileAt_joined_stored_list :
    let clock : Instant := ⟨0, 0, by decide, by decide, by decide⟩
    let table : Table := ⟨[⟨"k".toList, "[a,b]".toList⟩]⟩
    let operands := ["tag".toList, "k".toList, "z&".toList]
    let text := "tag != k!=z&".toList
    Joined Comparison.notEqual.symbol operands text ∧ (∀ operand ∈ operands, IsSide operand) ∧
      table.compileAt clock 256 0 text = .ofField "tag" (.ofOperator .nin (.list [.string "a", .string "b"])) := by
  intro clock table operands text
  have hnone : ∀ c ∈ ([] : Text), isBlank c = true := List.all_eq_true.1 rfl
  have hspace : ∀ c ∈ " ".toList, isBlank c = true := List.all_eq_true.1 rfl
  have hjoined : Joined Comparison.notEqual.symbol operands text :=
    .more hspace hspace (.more hnone hnone (.last "z&".toList))
  have hsides : ∀ operand ∈ operands, IsSide operand := by
    simp only [operands, List.forall_mem_cons]
    refine ⟨⟨by decide, ?_⟩, ⟨by decide, ?_⟩, ⟨by decide, ?_⟩, List.forall_mem_nil _⟩ <;> simp [symbolChars]
  refine ⟨hjoined, hsides, ?_⟩
  rw [(compileAt_joined hjoined hsides (by decide) clock (Nat.zero_le 256)).1]
  rfl

end Table

end FilterQuery
