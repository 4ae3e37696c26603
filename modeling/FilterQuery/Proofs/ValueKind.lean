import FilterQuery.Proofs.Dispatch
import FilterQuery.Proofs.Literal
import FilterQuery.Proofs.Number.Written
/-!
# Kinds of values

Seven rules claim a text as a value by its spelling. No text is claimed by two of them: the first
character other than a blank tells the kinds apart, `null` is no date relative to the clock, and
a written date has a dash behind digits, as no number does. `ValueKind.Recognizes.unique` says so.

Symbols of comparisons and connectives are looked for in between. Only literals and lists may hold
them, so that these two kinds have to be tried before, and apart from that the rules may be tried in
any order: `Rule.IsOrder.nodeIn_eq` says it of one text, and `Table.compileByRules_eq` of what the
compiler makes of it.
-/

namespace FilterQuery

/-- A kind of value that a text can spell. -/
inductive ValueKind where
  | null
  | relative
  | quoted
  | list
  | bool
  | number
  | date
  deriving DecidableEq

namespace ValueKind

/-- The kinds of values between delimiters, which may hold any symbols. -/
def enclosed : List ValueKind := [quoted, list]

/-- The kinds of scalars in the order in which they are tried. -/
def scalars : List ValueKind := [bool, number, date]

/-- The text spells a value of the kind under a clock. -/
def Recognizes (clock : Instant) (text : Text) : ValueKind → Prop
  | null => text = "null".toList
  | relative => (clock.ofRelative? text).isSome
  | quoted => ∃ quote ∈ ['\'', '"'], ∃ content : Text, quote ∉ content ∧ text = quote :: content ++ [quote]
  | list => ∃ content : Text, '[' ∉ content ∧ ']' ∉ content ∧ text = '[' :: content ++ [']']
  | bool => text.map Char.toLower = "true".toList ∨ text.map Char.toLower = "false".toList
  | number => (Number.read? text).isSome
  | date => (Instant.ofIso? text).isSome

/-- The tree of a text that spells a value of the kind; the items of a list are compiled. -/
def node? (clock : Instant) (compile : Text → Node) (text : Text) : ValueKind → Option Node
  | null => if text = "null".toList then some .null else none
  | relative => (clock.ofRelative? text).map .date
  | quoted => (Shape.quoted? text).map fun content => .string (String.ofList content)
  | list => (Shape.list? text).map fun items => .list (items.map compile)
  | bool => text.bool?.map .bool
  | number => (Number.read? text).map .number
  | date => (Instant.ofIso? text).map .date

end ValueKind

/-- A rule that may claim a text. -/
inductive Rule where
  | value (kind : ValueKind)
  | comparison
  | clauses
  deriving DecidableEq

namespace Rule

/-- The rules in the order in which they are tried. -/
def all : List Rule :=
  [value .null, value .relative, value .quoted, value .list, comparison, clauses, value .bool, value .number,
    value .date]

/-- The tree of a text that the rule claims; the parts of the text are compiled. -/
def node? (clock : Instant) (compile : Text → Node) (text : Text) : Rule → Option Node
  | value kind => kind.node? clock compile text
  | comparison => (Shape.comparison? text).map (·.node id compile)
  | clauses => (Shape.clauses? text).map (·.node id compile)

/-- The tree of a text, with the rules tried in the order. Text that no rule claims is null if it
is empty, and else a string. -/
def nodeIn (order : List Rule) (clock : Instant) (compile : Text → Node) (text : Text) : Node :=
  (order.findSome? (·.node? clock compile text)).getD (if text = [] then .null else .string (String.ofList text))

/-- The order has all rules, and those whose texts may hold symbols before those that look for
symbols. -/
structure IsOrder (order : List Rule) : Prop where
  perm : order.Perm all
  enclosed : ∀ kind ∈ ValueKind.enclosed, [value kind, comparison, clauses].Sublist order

end Rule

/-- Compiles a text with a number of levels to go, with the rules tried in the order. -/
def Table.compileByRules (order : List Rule) (table : Table) (clock : Instant) : (levels : Nat) → Text → Node
  | 0, _ => .null
  | levels + 1, text =>
    match table.resolve? text with
    | none => .null
    | some text => Rule.nodeIn order clock (compileByRules order table clock levels) text

/-! ## Recognising -/

theorem Shape.between?_eq_some_iff {first last : Char} {text content : Text} :
    between? first last text = some content ↔
      first ∉ content ∧ last ∉ content ∧ text = first :: content ++ [last] := by
  constructor
  · intro h
    cases text with
    | nil => cases h
    | cons c text =>
      obtain ⟨⟨rfl, hlast, hfirst, hinside⟩, hcontent⟩ := Option.ite_none_right_eq_some.1 h
      obtain rfl := Option.some.inj hcontent
      refine ⟨hfirst, hinside, ?_⟩
      rw [List.cons_append, List.dropLast_append_getLast? last hlast]
  · rintro ⟨hfirst, hlast, rfl⟩
    exact between?_append hfirst hlast

theorem Text.isSome_bool?_iff {text : Text} :
    text.bool?.isSome = true ↔ text.map Char.toLower = "true".toList ∨ text.map Char.toLower = "false".toList := by
  have htrue : text.sameLetters "true".toList = true ↔ text.map Char.toLower = "true".toList := decide_eq_true_iff
  have hfalse : text.sameLetters "false".toList = true ↔ text.map Char.toLower = "false".toList := decide_eq_true_iff
  rw [← htrue, ← hfalse, bool?]
  generalize text.sameLetters "true".toList = isTrue
  generalize text.sameLetters "false".toList = isFalse
  cases isTrue <;> cases isFalse <;> simp

namespace ValueKind

variable {clock : Instant} {text : Text} {kind other : ValueKind}

theorem isSome_quoted?_iff : (Shape.quoted? text).isSome = true ↔ quoted.Recognizes clock text := by
  have hany : (Shape.quoted? text).isSome = true ↔
      ∃ quote ∈ ['\'', '"'], (Shape.between? quote quote text).isSome := by
    rw [Shape.quoted?]
    simp
  simp only [hany, Option.isSome_iff_exists, Shape.between?_eq_some_iff, Recognizes, ← and_assoc, and_self]

theorem isSome_list?_iff : (Shape.list? text).isSome = true ↔ list.Recognizes clock text := by
  simp only [Shape.list?, Option.isSome_map, Option.isSome_iff_exists, Shape.between?_eq_some_iff, Recognizes]

/-- A kind has a tree for what it recognises. -/
theorem isSome_node?_iff {compile : Text → Node} :
    (kind.node? clock compile text).isSome = true ↔ kind.Recognizes clock text := by
  cases kind with
  | null => simp [node?, Recognizes]
  | relative => rw [node?, Option.isSome_map, Recognizes]
  | quoted => rw [node?, Option.isSome_map, isSome_quoted?_iff]
  | list => rw [node?, Option.isSome_map, isSome_list?_iff]
  | bool => rw [node?, Option.isSome_map, Text.isSome_bool?_iff, Recognizes]
  | number => rw [node?, Option.isSome_map, Recognizes]
  | date => rw [node?, Option.isSome_map, Recognizes]

instance : Decidable (kind.Recognizes clock text) :=
  decidable_of_iff ((kind.node? clock (fun _ => .null) text).isSome = true) isSome_node?_iff

end ValueKind

/-! ## The first character -/

/-- What the first character of a value can be. -/
inductive Lead where
  | word
  | truth
  | quote
  | bracket
  | numeral
  deriving DecidableEq

/-- What a character can lead. All that is left can lead a numeral, or no value at all. -/
def Lead.ofChar (c : Char) : Lead :=
  if c = 'n' then word
  else if c.toLower = 't' ∨ c.toLower = 'f' then truth
  else if c = '\'' ∨ c = '"' then quote
  else if c = '[' then bracket
  else numeral

theorem Lead.ofChar_of_isDigit {c : Char} (h : c.isDigit = true) : ofChar c = numeral :=
  Text.forall_isDigit (P := (ofChar · = numeral)) (by decide) h

namespace Text

/-- What the first character other than a blank can lead. -/
def lead? (text : Text) : Option Lead := text.trim.head?.map Lead.ofChar

theorem toLower_of_isBlank {c : Char} (h : isBlank c = true) : c.toLower = c := by
  refine dif_neg fun hupper => ?_
  have hlow : 'A'.toNat ≤ c.toNat := UInt32.le_iff_toNat_le.1 hupper.1
  have hhigh : c.toNat ≤ 'Z'.toNat := UInt32.le_iff_toNat_le.1 hupper.2
  have hfirst : 'A'.toNat = 65 := rfl
  have hlast : 'Z'.toNat = 90 := rfl
  simp only [isBlank, Bool.or_eq_true, Bool.and_eq_true, decide_eq_true_eq, beq_iff_eq] at h
  omega

theorem lead?_cons {c : Char} (hc : isBlank c = false) (text : Text) : lead? (c :: text) = some (Lead.ofChar c) := by
  rw [lead?, trim, List.dropWhile_cons_of_neg (by simp [hc]), trimEnd_cons hc]
  rfl

theorem lead?_of_toLower {c : Char} (hc : c.toLower = 't' ∨ c.toLower = 'f') (text : Text) :
    lead? (c :: text) = some .truth := by
  have hblank : isBlank c = false := by
    by_contra hblank
    rw [toLower_of_isBlank (eq_true_of_ne_false hblank)] at hc
    rcases hc with rfl | rfl <;> exact hblank rfl
  have hword : c ≠ 'n' := by
    rintro rfl
    rcases hc with hc | hc <;> cases hc
  rw [lead?_cons hblank, Lead.ofChar, if_neg hword, if_pos hc]

end Text

theorem Digits.lead_append {digits : Digits} (hne : digits.chars ≠ []) (rest : Text) :
    (digits.chars ++ rest).head?.map Lead.ofChar = some .numeral := by
  obtain ⟨c, chars, hchars⟩ := List.exists_cons_of_ne_nil hne
  have hc : c.isDigit = true := digits.isDigit c (hchars ▸ List.mem_cons_self)
  rw [hchars, List.cons_append, List.head?_cons, Option.map_some, Lead.ofChar_of_isDigit hc]

theorem DecimalSpelling.lead_text (s : DecimalSpelling) : s.text.head?.map Lead.ofChar = some .numeral := by
  rw [text]
  cases s.sign with
  | plus => rfl
  | minus => rfl
  | absent =>
    rcases s.hasDigit with hne | ⟨digits, hfraction, -⟩
    · exact Digits.lead_append hne _
    · -- the digits may all stand behind the point
      by_cases hne : s.whole.chars = []
      · rw [hne, Option.mem_def.1 hfraction]
        rfl
      · exact Digits.lead_append hne _

theorem Number.lead_of_isNumeral {text : Text} (h : IsNumeral text) : text.head?.map Lead.ofChar = some .numeral := by
  cases h with
  | infinity sign => cases sign <;> rfl
  | prefixed p => rfl
  | decimal s => exact s.lead_text

namespace ValueKind

variable {clock : Instant} {text : Text} {kind other : ValueKind}

/-- The lead of a kind. -/
def lead : ValueKind → Lead
  | null | relative => .word
  | bool => .truth
  | quoted => .quote
  | list => .bracket
  | number | date => .numeral

/-- The first character of a value tells the lead of its kind. -/
theorem Recognizes.lead?_eq (h : kind.Recognizes clock text) : text.lead? = some kind.lead := by
  cases kind with
  | null =>
    rw [show text = "null".toList from h]
    rfl
  | relative =>
    obtain ⟨instant, hinstant⟩ := Option.isSome_iff_exists.1 h
    obtain ⟨rest, rfl⟩ := Instant.now_prefix_of_ofRelative? hinstant
    exact Text.lead?_cons (c := 'n') rfl _
  | quoted =>
    obtain ⟨quote, hquote, content, -, rfl⟩ := h
    simp only [List.mem_cons, List.not_mem_nil, or_false] at hquote
    rcases hquote with rfl | rfl
    · exact Text.lead?_cons (c := '\'') rfl _
    · exact Text.lead?_cons (c := '"') rfl _
  | list =>
    obtain ⟨content, -, -, rfl⟩ := h
    exact Text.lead?_cons (c := '[') rfl _
  | bool =>
    rcases h with h | h
    · obtain ⟨c, rest, rfl, hc, -⟩ := List.map_eq_cons_iff.1 h
      exact Text.lead?_of_toLower (.inl hc) rest
    · obtain ⟨c, rest, rfl, hc, -⟩ := List.map_eq_cons_iff.1 h
      exact Text.lead?_of_toLower (.inr hc) rest
  | number => exact Number.lead_of_isNumeral (Number.isSome_read?_iff.1 h)
  | date =>
    obtain ⟨instant, hinstant⟩ := Option.isSome_iff_exists.1 h
    obtain ⟨digits, hne, rest, rfl⟩ := Instant.exists_dash hinstant
    rw [Text.lead?, Text.trim_append hne fun c hc => Text.isBlank_of_isDigit (digits.isDigit c hc)]
    exact Digits.lead_append hne _

theorem not_null_relative (h : null.Recognizes clock text) : ¬ relative.Recognizes clock text := by
  rw [show text = "null".toList from h]
  exact Bool.false_ne_true

/-- A date has a dash behind digits, as no number does. -/
theorem not_number_date (h : number.Recognizes clock text) : ¬ date.Recognizes clock text := by
  intro hdate
  obtain ⟨instant, hinstant⟩ := Option.isSome_iff_exists.1 hdate
  obtain ⟨digits, hne, rest, rfl⟩ := Instant.exists_dash hinstant
  rw [Recognizes, Number.read?_dash hne] at h
  cases h

/-- One kind at most recognises a text. -/
theorem Recognizes.unique (h : kind.Recognizes clock text) (h' : other.Recognizes clock text) : kind = other := by
  have hlead : kind.lead = other.lead := Option.some.inj (h.lead?_eq.symm.trans h'.lead?_eq)
  cases kind <;> cases other <;> try first | rfl | exact absurd hlead (by decide)
  case null.relative => exact absurd h' (not_null_relative h)
  case relative.null => exact absurd h (not_null_relative h')
  case number.date => exact absurd h' (not_number_date h)
  case date.number => exact absurd h (not_number_date h')

end ValueKind

/-! ## The order of the rules -/

/-- What is found first does not change when elements without a finding are left out. -/
theorem findSome?_sublist {α β : Type} {f : α → Option β} {l m : List α} (h : l.Sublist m) (hm : m.Nodup)
    (hnone : ∀ a ∈ m, a ∉ l → f a = none) : l.findSome? f = m.findSome? f := by
  induction h with
  | slnil => rfl
  | @cons l m a h ih =>
    obtain ⟨ha, hm⟩ := List.nodup_cons.1 hm
    have hfirst : f a = none := hnone a List.mem_cons_self (mt (h.subset ·) ha)
    rw [List.findSome?_cons_of_isNone (Option.isNone_iff_eq_none.2 hfirst)]
    exact ih hm fun b hb => hnone b (List.mem_cons_of_mem a hb)
  | @cons_cons l m a h ih =>
    obtain ⟨ha, hm⟩ := List.nodup_cons.1 hm
    have hrest : l.findSome? f = m.findSome? f := ih hm fun b hb hl => by
      refine hnone b (List.mem_cons_of_mem a hb) fun hmem => ?_
      rcases List.mem_cons.1 hmem with rfl | hmem
      · exact ha hb
      · exact hl hmem
    rw [List.findSome?_cons, List.findSome?_cons, hrest]

theorem findSome?_cons_eq_or {α β : Type} (f : α → Option β) (a : α) (l : List α) :
    (a :: l).findSome? f = (f a).or (l.findSome? f) := by
  rw [List.findSome?_cons]
  cases f a <;> rfl

/-- Where one element at most has a finding, the order of the elements makes no difference. -/
theorem findSome?_perm {α β : Type} {f : α → Option β}
    (hunique : ∀ a b, (f a).isSome = true → (f b).isSome = true → a = b) {l m : List α} (h : l.Perm m) :
    l.findSome? f = m.findSome? f := by
  induction h with
  | nil => rfl
  | cons a _ ih => rw [findSome?_cons_eq_or, findSome?_cons_eq_or, ih]
  | swap a b l =>
    have hcomm : (f b).or (f a) = (f a).or (f b) := by
      cases ha : f a with
      | none => exact Option.or_none
      | some x =>
        cases hb : f b with
        | none => rfl
        | some y =>
          obtain rfl := hunique a b (by rw [ha]; rfl) (by rw [hb]; rfl)
          rw [ha] at hb
          rw [hb]
    simp only [findSome?_cons_eq_or, ← Option.or_assoc, hcomm]
  | trans _ _ ih ih' => exact ih.trans ih'

namespace Shape

variable {text : Text}

theorem comparison?_eq_none (h : ∀ c ∈ symbolChars, c ∉ text) : comparison? text = none := by
  rw [comparison?, List.findSome?_eq_none_iff]
  intro symbol _
  have hcut : Text.cut? symbol.symbol text = none := Text.cut?_eq_none_iff.2 fun hpart => by
    obtain ⟨c, hc⟩ := List.exists_mem_of_ne_nil _ symbol.symbol_ne_nil
    exact h c (symbol.symbol_subset hc) (hpart.subset hc)
  rw [Text.operands?, hcut]
  rfl

theorem clauses?_eq_none (h : ∀ connective : Connective, connective.symbol ∉ text) : clauses? text = none := by
  rw [clauses?, Option.map_eq_none_iff, List.find?_eq_none]
  intro connective _
  simpa using h connective

end Shape

/-- The characters of the symbols of comparisons and connectives. -/
def operatorChars : List Char := symbolChars ++ Connective.all.map Connective.symbol

theorem Connective.symbol_mem_operatorChars (connective : Connective) : connective.symbol ∈ operatorChars := by
  cases connective <;> decide

namespace ValueKind

variable {clock : Instant} {text : Text} {kind : ValueKind} {compile : Text → Node}

theorem node?_eq_none_iff : kind.node? clock compile text = none ↔ ¬ kind.Recognizes clock text := by
  rw [← isSome_node?_iff, Option.not_isSome_iff_eq_none]

/-- No other values hold symbols. -/
theorem Recognizes.not_mem (h : kind.Recognizes clock text) (hkind : kind ∉ enclosed) :
    ∀ c ∈ operatorChars, c ∉ text := by
  have hclasses : operatorChars.all (fun c => decide (c ∉ "null".toList ∧ isOffsetChar c = false ∧
      c.toLower ∉ "truefalse".toList ∧ isNumeralChar c = false ∧ isBlank c = false ∧ Instant.isIsoChar c = false)) =
        true := by decide
  intro c hc hm
  obtain ⟨hnull, hoffset, htruth, hnumeral, hblank, hiso⟩ := of_decide_eq_true (List.all_eq_true.1 hclasses c hc)
  cases kind with
  | null => exact hnull (h ▸ hm)
  | relative =>
    rw [Recognizes, Instant.ofRelative?_eq_none hoffset hm] at h
    cases h
  | quoted => simp [enclosed] at hkind
  | list => simp [enclosed] at hkind
  | bool =>
    rw [Recognizes, ← Text.isSome_bool?_iff, Text.bool?_eq_none htruth hm] at h
    cases h
  | number =>
    rw [Recognizes, Number.read?_eq_none hnumeral hblank hm] at h
    cases h
  | date =>
    rw [Recognizes, Instant.ofIso?_eq_none hiso hm] at h
    cases h

end ValueKind

namespace Rule

variable {clock : Instant} {text : Text} {compile : Text → Node} {order : List Rule}

theorem mem_all (rule : Rule) : rule ∈ all := by
  cases rule with
  | value kind => cases kind <;> simp [all]
  | comparison => simp [all]
  | clauses => simp [all]

theorem isOrder_all : IsOrder all := ⟨.rfl, by decide⟩

theorem IsOrder.nodup (h : IsOrder order) : order.Nodup := h.perm.nodup_iff.2 (by decide)

/-- The rules that may claim a text stand in the same order wherever the rules have an order. -/
theorem exists_claimants (clock : Instant) (compile : Text → Node) (text : Text) : ∃ claimants : List Rule,
    (∀ order, IsOrder order → claimants.Sublist order) ∧
      ∀ rule, rule ∉ claimants → rule.node? clock compile text = none := by
  by_cases hvalue : ∃ kind : ValueKind, kind.Recognizes clock text
  · obtain ⟨kind, h⟩ := hvalue
    have hother : ∀ other, value other ≠ value kind → (value other).node? clock compile text = none :=
      fun other hne => ValueKind.node?_eq_none_iff.2 fun hother => hne (congrArg value (hother.unique h))
    by_cases hkind : kind ∈ ValueKind.enclosed
    · refine ⟨[value kind, comparison, clauses], fun order ho => ho.enclosed kind hkind, fun rule hrule => ?_⟩
      cases rule with
      | value other => exact hother other fun he => hrule (he ▸ List.mem_cons_self)
      | comparison => simp at hrule
      | clauses => simp at hrule
    · have hno := h.not_mem hkind
      have hcomparison : Shape.comparison? text = none :=
        Shape.comparison?_eq_none fun c hc => hno c (List.mem_append_left _ hc)
      have hclauses : Shape.clauses? text = none :=
        Shape.clauses?_eq_none fun connective => hno _ connective.symbol_mem_operatorChars
      refine ⟨[value kind], fun order ho => ?_, fun rule hrule => ?_⟩
      · exact List.singleton_sublist.2 (ho.perm.mem_iff.2 (mem_all _))
      · cases rule with
        | value other => exact hother other fun he => hrule (he ▸ List.mem_cons_self)
        | comparison => rw [node?, hcomparison, Option.map_none]
        | clauses => rw [node?, hclauses, Option.map_none]
  · refine ⟨[comparison, clauses], fun order ho => ?_, fun rule hrule => ?_⟩
    · exact (List.sublist_cons_self _ _).trans (ho.enclosed .quoted List.mem_cons_self)
    · cases rule with
      | value kind => exact ValueKind.node?_eq_none_iff.2 fun h => hvalue ⟨kind, h⟩
      | comparison => simp at hrule
      | clauses => simp at hrule

/-- Any order of the rules finds the same. -/
theorem IsOrder.nodeIn_eq (h : IsOrder order) (clock : Instant) (compile : Text → Node) (text : Text) :
    nodeIn order clock compile text = nodeIn all clock compile text := by
  obtain ⟨claimants, hsublist, hnone⟩ := exists_claimants clock compile text
  have hfind : ∀ {order : List Rule}, IsOrder order → claimants.findSome? (·.node? clock compile text) =
      order.findSome? (·.node? clock compile text) := fun ho =>
    findSome?_sublist (hsublist _ ho) ho.nodup fun rule _ => hnone rule
  rw [nodeIn, nodeIn, ← hfind h, ← hfind isOrder_all]

/-- The rules for scalars find the scalar that a text names in any order. -/
theorem nodeIn_scalars {kinds : List ValueKind} (h : kinds.Perm ValueKind.scalars) (clock : Instant)
    (compile : Text → Node) (text : Text) : nodeIn (kinds.map value) clock compile text = Node.ofScalar text := by
  have hunique : ∀ kind other : ValueKind, (kind.node? clock compile text).isSome = true →
      (other.node? clock compile text).isSome = true → kind = other := fun kind other hkind hother =>
    (ValueKind.isSome_node?_iff.1 hkind).unique (ValueKind.isSome_node?_iff.1 hother)
  have hfind := findSome?_perm hunique h
  rw [nodeIn, List.findSome?_map, Node.ofScalar]
  show (kinds.findSome? (·.node? clock compile text)).getD _ = _
  rw [hfind]
  by_cases hnil : text = []
  · subst hnil
    rfl
  · rw [if_neg hnil, if_neg hnil]
    simp only [ValueKind.scalars, findSome?_cons_eq_or, List.findSome?_nil, Option.or_none, ValueKind.node?,
      Option.orElse_eq_orElse, Option.orElse_eq_or]

theorem nodeIn_append (first last : List Rule) (clock : Instant) (compile : Text → Node) (text : Text) :
    nodeIn (first ++ last) clock compile text =
      (first.findSome? (·.node? clock compile text)).getD (nodeIn last clock compile text) := by
  rw [nodeIn, nodeIn, List.findSome?_append, Option.getD_or]

/-- The rules in their order take a text for what its shape says. -/
theorem nodeIn_all (clock : Instant) (compile : Text → Node) (text : Text) :
    nodeIn all clock compile text = (Shape.ofText clock text).node id compile := by
  have hall : all = [value .null, value .relative, value .quoted, value .list, comparison, clauses] ++
      ValueKind.scalars.map value := rfl
  rw [hall, nodeIn_append, nodeIn_scalars .rfl, Shape.ofText]
  split
  · next hnull =>
    subst hnull
    rfl
  · next hnull =>
    have hscalar : Node.ofScalar text = (Shape.scalar text).node id compile := rfl
    rw [hscalar, ← Option.getD_map (Shape.node id compile)]
    simp only [findSome?_cons_eq_or, List.findSome?_nil, Option.or_none, node?, ValueKind.node?, if_neg hnull,
      Option.none_or, Option.orElse_eq_orElse, Option.orElse_eq_or, Option.map_or, Option.map_map]
    rfl

end Rule

/-- Rules that have an order compile a text to the same tree in any order. -/
theorem Table.compileByRules_eq {order : List Rule} (h : Rule.IsOrder order) (table : Table) (clock : Instant)
    (levels : Nat) (text : Text) :
    table.compileByRules order clock levels text = table.compileWithin clock levels text := by
  induction levels generalizing text with
  | zero => rfl
  | succ levels ih =>
    have hparts : table.compileByRules order clock levels = table.compileWithin clock levels := funext ih
    rw [compileByRules, compileWithin, hparts]
    cases table.resolve? text with
    | none => rfl
    | some final => exact (h.nodeIn_eq clock _ final).trans (Rule.nodeIn_all clock _ final)

namespace ValueKind

/-- At most one kind of value recognises a text, and so the rules for values may be tried in any
order: those for scalars among one another, and all of them in the compiler, where only literals and
lists have to be tried before symbols are looked for. -/
theorem recognizes_apart (clock : Instant) (text : Text) :
    (∀ kind other : ValueKind, kind.Recognizes clock text → other.Recognizes clock text → kind = other) ∧
    (∀ (kind : ValueKind) (compile : Text → Node),
      (kind.node? clock compile text).isSome = true ↔ kind.Recognizes clock text) ∧
    (∀ kinds : List ValueKind, kinds.Perm scalars → ∀ compile : Text → Node,
      Rule.nodeIn (kinds.map .value) clock compile text = Node.ofScalar text) ∧
    ∀ order : List Rule, Rule.IsOrder order → ∀ (table : Table) (levels : Nat),
      table.compileByRules order clock levels text = table.compileWithin clock levels text :=
  ⟨fun _ _ h h' => h.unique h', fun _ _ => isSome_node?_iff,
    fun _ h compile => Rule.nodeIn_scalars h clock compile text,
    fun _ h table levels => table.compileByRules_eq h clock levels text⟩

/-- A list of a boolean, a literal with a symbol in it, a number and a date, with the rules for
values tried from last to first. -/
theorem recognizes_apart_reversed :
    let clock : Instant := ⟨0, 0, by decide, by decide, by decide⟩
    let kinds := [date, number, bool]
    let order := (kinds ++ [list, quoted, relative, null]).map Rule.value ++ [.comparison, .clauses]
    let text := "[TRUE, 'a=1', 0x1F, now]".toList
    list.Recognizes clock text ∧ (∀ kind : ValueKind, kind.Recognizes clock text → kind = list) ∧
      kinds.Perm scalars ∧
      Rule.nodeIn (kinds.map .value) clock (fun _ => .null) " 0x1F".toList = .number (.integer 31) ∧
      Rule.IsOrder order ∧ Table.compileByRules order ⟨[]⟩ clock 2 text =
        .list [.bool true, .string "a=1", .number (.integer 31), .date clock] := by
  intro clock kinds order text
  have hlist : list.Recognizes clock text := by decide
  have hkinds : kinds.Perm scalars := by decide
  have horder : Rule.IsOrder order := ⟨by decide, by decide⟩
  have hscalar := (recognizes_apart clock " 0x1F".toList).2.2.1 kinds hkinds fun _ => .null
  have hcompile := (recognizes_apart clock text).2.2.2 order horder ⟨[]⟩ 2
  refine ⟨hlist, fun kind h => (recognizes_apart clock text).1 kind list h hlist, hkinds, ?_, horder, ?_⟩
  · rw [hscalar]
    rfl
  · rw [hcompile]
    rfl

-- a literal that is not tried before the comparisons is split at a symbol in it
example (clock : Instant) (compile : Text → Node) :
    Rule.nodeIn [.comparison, .value .quoted] clock compile "'a>1'".toList =
      .ofField (compile "'a".toList).fieldName (.ofOperator .gt (compile "1'".toList)) := rfl

end ValueKind

end FilterQuery
