import FilterQuery.Proofs.Search
/-!
# Patterns

A pattern is a row of characters of given classes and of runs, which are taken as long as they can
be. `Pattern.rests` tries all matches at the front of a text, and `Pattern.Matches` says which
match is the one that is found: the leftmost, and of those at one place the first that is tried.

Each tier has a pattern, and `Tier.matches_iff` says that the search of the tier is for that
match. The tokenizer puts a key where the matched text first occurs, which is another search.
`Tier.replaceFirst_matched` says that the two find the same place.
-/

namespace FilterQuery

/-- An item of a pattern. -/
inductive PatternItem where
  /-- One character of a class. -/
  | one (holds : Char → Bool)
  /-- Characters of a class, as many as there are if what follows can still match. -/
  | many (holds : Char → Bool)

/-- A pattern matches item by item. -/
abbrev Pattern := List PatternItem

/-- What an item may leave of a text when it is matched at the front, in the order in which it is
tried. -/
def PatternItem.rests : PatternItem → Text → List Text
  | one _, [] => []
  | one holds, c :: text => if holds c then [text] else []
  | many _, [] => [[]]
  | many holds, c :: text => if holds c then (many holds).rests text ++ [c :: text] else [c :: text]

namespace Pattern

/-- What a pattern may leave of a text when it is matched at the front, in the order in which the
matches are tried. -/
def rests : Pattern → Text → List Text
  | [], text => [text]
  | item :: pattern, text => (item.rests text).flatMap (rests pattern)

/-- The cut takes out the match of the pattern: at the leftmost place that has any, the match that
is tried first. -/
structure Matches (pattern : Pattern) (text : Text) (cut : Cut Char) : Prop where
  text_eq : text = cut.before ++ cut.part ++ cut.after
  first : (pattern.rests (cut.part ++ cut.after)).head? = some cut.after
  leftmost : ∀ front ∈ cut.before.tails, front ≠ [] → pattern.rests (front ++ cut.part ++ cut.after) = []

instance (pattern : Pattern) (text : Text) (cut : Cut Char) : Decidable (pattern.Matches text cut) :=
  decidable_of_iff
    (text = cut.before ++ cut.part ++ cut.after ∧
      (pattern.rests (cut.part ++ cut.after)).head? = some cut.after ∧
      ∀ front ∈ cut.before.tails, front ≠ [] → pattern.rests (front ++ cut.part ++ cut.after) = [])
    ⟨fun h => ⟨h.1, h.2.1, h.2.2⟩, fun h => ⟨h.text_eq, h.first, h.leftmost⟩⟩

/-- The characters of a word. -/
def word (word : Text) : Pattern := word.map fun c => .one (· = c)

/-- A run of characters of a class, of a least length. -/
def run : (least : Nat) → (holds : Char → Bool) → Pattern
  | 0, holds => [.many holds]
  | least + 1, holds => .one holds :: run least holds

/-- A run between two characters. -/
def delimited (opening closing : Char) (least : Nat) (holds : Char → Bool) : Pattern :=
  word [opening] ++ run least holds ++ word [closing]

/-- A word between two runs. -/
def around (middle : Text) (least : Nat) (holds : Char → Bool) : Pattern :=
  run least holds ++ word middle ++ run least holds

end Pattern

/-- The pattern of what a tier lifts out. -/
def Tier.pattern : Tier → Pattern
  | literal quote => .delimited quote quote 0 (· ≠ quote)
  | group => .delimited '(' ')' 1 (! isParenthesis ·)
  | comparison symbol => .around symbol.symbol 1 (! isConnective ·)
  | conjunction => .around ['&'] 0 (· ≠ '|')

/-! ## What patterns leave -/

namespace Pattern

section Run
variable {holds : Char → Bool} {least : Nat} {text rest : Text}

theorem rests_append (first last : Pattern) (text : Text) :
    (first ++ last).rests text = (first.rests text).flatMap last.rests := by
  induction first generalizing text with
  | nil => exact (List.flatMap_singleton ..).symm
  | cons item first ih =>
    rw [List.cons_append, rests, rests, List.flatMap_assoc]
    exact List.flatMap_congr fun rest _ => ih rest

theorem rests_singleton (item : PatternItem) (text : Text) : rests [item] text = item.rests text := by
  rw [rests]
  exact List.flatMap_singleton' _

theorem rests_one_cons (holds : Char → Bool) (pattern : Pattern) (c : Char) (text : Text) :
    rests (.one holds :: pattern) (c :: text) = if holds c then pattern.rests text else [] := by
  rw [rests, PatternItem.rests]
  split
  · rw [List.flatMap_singleton]
  · rfl

theorem mem_rests_word {word : Text} : rest ∈ (Pattern.word word).rests text ↔ text = word ++ rest := by
  induction word generalizing text with
  | nil => rw [Pattern.word, List.map_nil, rests, List.mem_singleton, List.nil_append, eq_comm]
  | cons w word ih =>
    cases text with
    | nil => exact iff_of_false List.not_mem_nil nofun
    | cons c text =>
      rw [Pattern.word, List.map_cons, rests_one_cons, ← Pattern.word, List.cons_append, List.cons.injEq]
      by_cases hc : c = w
      · rw [if_pos (decide_eq_true hc), ih, and_iff_right hc]
      · rw [if_neg (by simpa using hc)]
        exact iff_of_false List.not_mem_nil fun h => hc h.1

theorem mem_rests_many :
    rest ∈ (PatternItem.many holds).rests text ↔ ∃ run, (∀ c ∈ run, holds c = true) ∧ text = run ++ rest := by
  induction text with
  | nil =>
    rw [PatternItem.rests, List.mem_singleton]
    constructor
    · rintro rfl
      exact ⟨[], List.forall_mem_nil _, rfl⟩
    · rintro ⟨run, -, h⟩
      exact (List.append_eq_nil_iff.1 h.symm).2
  | cons c text ih =>
    have hrun : (∃ run, (∀ d ∈ run, holds d = true) ∧ c :: text = run ++ rest) ↔
        rest = c :: text ∨ holds c = true ∧ ∃ run, (∀ d ∈ run, holds d = true) ∧ text = run ++ rest := by
      constructor
      · rintro ⟨_ | ⟨d, run⟩, hrun, h⟩
        · exact .inl h.symm
        · obtain ⟨rfl, rfl⟩ := List.cons.inj h
          obtain ⟨hc, hrun⟩ := List.forall_mem_cons.1 hrun
          exact .inr ⟨hc, run, hrun, rfl⟩
      · rintro (rfl | ⟨hc, run, hrun, rfl⟩)
        · exact ⟨[], List.forall_mem_nil _, rfl⟩
        · exact ⟨c :: run, List.forall_mem_cons.2 ⟨hc, hrun⟩, rfl⟩
    rw [hrun, ← ih, PatternItem.rests]
    split
    · next hc => simp [hc, or_comm]
    · next hc => simp [hc]

theorem head?_rests_many (holds : Char → Bool) (text : Text) :
    ((PatternItem.many holds).rests text).head? = some (text.dropWhile holds) := by
  induction text with
  | nil => rfl
  | cons c text ih =>
    rw [PatternItem.rests, List.dropWhile_cons]
    split
    · rw [List.head?_append, ih]
      rfl
    · rfl

/-- A run may end behind any characters of the class, if they are enough. -/
theorem mem_rests_run : rest ∈ (run least holds).rests text ↔
    ∃ front, least ≤ front.length ∧ (∀ c ∈ front, holds c = true) ∧ text = front ++ rest := by
  induction least generalizing text with
  | zero => simp only [run, rests_singleton, mem_rests_many, Nat.zero_le, true_and]
  | succ least ih =>
    cases text with
    | nil =>
      refine iff_of_false List.not_mem_nil ?_
      rintro ⟨front, hlength, -, h⟩
      rw [(List.append_eq_nil_iff.1 h.symm).1] at hlength
      cases hlength
    | cons c text =>
      rw [run, rests_one_cons]
      constructor
      · intro h
        split at h
        · next hc =>
          obtain ⟨front, hlength, hfront, rfl⟩ := ih.1 h
          exact ⟨c :: front, Nat.succ_le_succ hlength, List.forall_mem_cons.2 ⟨hc, hfront⟩, rfl⟩
        · cases h
      · rintro ⟨_ | ⟨d, front⟩, hlength, hfront, h⟩
        · cases hlength
        · obtain ⟨rfl, rfl⟩ := List.cons.inj h
          obtain ⟨hc, hfront⟩ := List.forall_mem_cons.1 hfront
          rw [if_pos hc]
          exact ih.2 ⟨front, Nat.le_of_succ_le_succ hlength, hfront, rfl⟩

/-- A run ends first where there are no more characters of the class. -/
theorem eq_of_head?_rests_run (h : ((run least holds).rests text).head? = some rest) : rest = text.dropWhile holds := by
  induction least generalizing text with
  | zero =>
    rw [run, rests_singleton, head?_rests_many] at h
    exact (Option.some.inj h).symm
  | succ least ih =>
    cases text with
    | nil => cases h
    | cons c text =>
      rw [run, rests_one_cons] at h
      split at h
      · next hc => rw [List.dropWhile_cons_of_pos hc, ih h]
      · cases h

theorem mem_rests_delimited {opening closing : Char} :
    rest ∈ (delimited opening closing least holds).rests text ↔
      ∃ inner, least ≤ inner.length ∧ (∀ c ∈ inner, holds c = true) ∧ text = opening :: inner ++ closing :: rest := by
  simp only [delimited, rests_append, List.mem_flatMap, mem_rests_word, mem_rests_run]
  constructor
  · rintro ⟨_, ⟨_, rfl, inner, hlength, hinner, rfl⟩, rfl⟩
    exact ⟨inner, hlength, hinner, rfl⟩
  · rintro ⟨inner, hlength, hinner, rfl⟩
    exact ⟨closing :: rest, ⟨inner ++ closing :: rest, rfl, inner, hlength, hinner, rfl⟩, rfl⟩

section Around
variable {middle : Text}

theorem mem_rests_around : rest ∈ (around middle least holds).rests text ↔
    ∃ left right, (least ≤ left.length ∧ ∀ c ∈ left, holds c = true) ∧
      (least ≤ right.length ∧ ∀ c ∈ right, holds c = true) ∧ text = left ++ middle ++ right ++ rest := by
  simp only [around, rests_append, List.mem_flatMap, mem_rests_word, mem_rests_run]
  constructor
  · rintro ⟨_, ⟨_, ⟨left, hlength, hleft, rfl⟩, rfl⟩, right, hlength', hright, rfl⟩
    exact ⟨left, right, ⟨hlength, hleft⟩, ⟨hlength', hright⟩, by simp⟩
  · rintro ⟨left, right, ⟨hlength, hleft⟩, ⟨hlength', hright⟩, rfl⟩
    exact ⟨right ++ rest, ⟨middle ++ (right ++ rest), ⟨left, hlength, hleft, by simp⟩, rfl⟩, right, hlength', hright, rfl⟩

/-- Wherever the word stands in a run, the run is matched to its end first. -/
theorem eq_of_head?_rests_around (hmiddle : ∀ c ∈ middle, holds c = true)
    (h : ((around middle least holds).rests text).head? = some rest) : rest = text.dropWhile holds := by
  rw [around, rests_append, List.head?_flatMap] at h
  obtain ⟨behind, hbehind, hrest⟩ := List.exists_of_findSome?_eq_some h
  rw [rests_append, List.mem_flatMap] at hbehind
  obtain ⟨_, hfront, hword⟩ := hbehind
  obtain ⟨left, -, hleft, rfl⟩ := mem_rests_run.1 hfront
  obtain rfl := mem_rests_word.1 hword
  rw [eq_of_head?_rests_run hrest, List.dropWhile_append_of_pos hleft, List.dropWhile_append_of_pos hmiddle]

end Around

end Run

end Pattern

/-! ## What tiers take off the front -/

namespace Tier

section Front
variable {text part after : Text} {holds : Char → Bool} {least : Nat}

section Delimited
variable {opening closing : Char} (hholds : ∀ c, holds c = isInside some opening closing c)
include hholds

theorem enclosed?_of_mem_rests (h : after ∈ (Pattern.delimited opening closing least holds).rests text) :
    ∃ part, least + 2 ≤ part.length ∧ enclosed? some opening closing text = some (part, after) := by
  obtain ⟨inner, hlength, hinner, rfl⟩ := Pattern.mem_rests_delimited.1 h
  refine ⟨opening :: inner ++ [closing], by simpa using hlength, ?_⟩
  exact enclosed?_append rfl rfl (fun c hc => (hholds c).symm.trans (hinner c hc)) after

theorem mem_rests_of_enclosed? (h : enclosed? some opening closing text = some (part, after))
    (hlength : least + 2 ≤ part.length) : after ∈ (Pattern.delimited opening closing least holds).rests text := by
  obtain ⟨rfl, a, inner, b, rfl, ha, hb, hinner⟩ := append_of_enclosed? h
  obtain rfl := Option.some.inj ha
  obtain rfl := Option.some.inj hb
  exact Pattern.mem_rests_delimited.2
    ⟨inner, by simpa using hlength, fun c hc => (hholds c).trans (hinner c hc), by simp⟩

end Delimited

end Front

/-- The tier lifts the clauses in which the word stands with enough on both its sides. -/
structure LiftsAround (tier : Tier) (middle : Text) (least : Nat) (holds : Char → Bool) : Prop where
  pattern_eq : tier.pattern = .around middle least holds
  front?_eq (l : Text) : tier.front? some l = segment? some tier.separates tier.accepts l
  separates_eq (c : Char) : tier.separates (some c) = ! holds c
  middle_holds : ∀ c ∈ middle, holds c = true
  accepts_iff (part : Text) : tier.accepts (part.map some) = true ↔
    ∃ left right, least ≤ left.length ∧ least ≤ right.length ∧ part = left ++ middle ++ right

theorem liftsAround_comparison (symbol : Comparison) :
    (comparison symbol).LiftsAround symbol.symbol 1 (! isConnective ·) where
  pattern_eq := rfl
  front?_eq _ := rfl
  separates_eq c := by simp [separates, isConnective]
  middle_holds := List.all_eq_true.1 (by cases symbol <;> rfl)
  accepts_iff part := by
    simp only [accepts_comparison_iff, Nat.one_le_iff_ne_zero, ne_eq, List.length_eq_zero_iff]
    constructor
    · rintro ⟨left, word, right, hleft, hright, rfl, hword⟩
      obtain rfl : word = symbol.symbol := (Option.some_injective _).list_map hword
      exact ⟨left, right, hleft, hright, rfl⟩
    · rintro ⟨left, right, hleft, hright, rfl⟩
      exact ⟨left, symbol.symbol, right, hleft, hright, rfl, rfl⟩

theorem liftsAround_conjunction : conjunction.LiftsAround ['&'] 0 (· ≠ '|') where
  pattern_eq := rfl
  front?_eq _ := rfl
  separates_eq c := by simp [separates]
  middle_holds := List.all_eq_true.1 rfl
  accepts_iff part := by
    rw [accepts_conjunction_iff]
    constructor
    · intro h
      obtain ⟨left, right, rfl⟩ := List.append_of_mem (by simpa using h : '&' ∈ part)
      exact ⟨left, right, Nat.zero_le _, Nat.zero_le _, by simp⟩
    · rintro ⟨left, right, -, -, rfl⟩
      simp

namespace LiftsAround
variable {tier : Tier} {middle text part after : Text} {least : Nat} {holds : Char → Bool}
  (h : tier.LiftsAround middle least holds)
include h

/-- All parts of clauses that the tier accepts are tried. -/
theorem mem_rests_iff : after ∈ tier.pattern.rests text ↔
    ∃ part, (∀ c ∈ part, holds c = true) ∧ tier.accepts (part.map some) = true ∧ text = part ++ after := by
  rw [h.pattern_eq, Pattern.mem_rests_around]
  constructor
  · rintro ⟨left, right, ⟨hlength, hleft⟩, ⟨hlength', hright⟩, rfl⟩
    refine ⟨left ++ middle ++ right, ?_, (h.accepts_iff _).2 ⟨left, right, hlength, hlength', rfl⟩, rfl⟩
    simp only [List.forall_mem_append]
    exact ⟨⟨hleft, h.middle_holds⟩, hright⟩
  · rintro ⟨part, hpart, haccepts, rfl⟩
    obtain ⟨left, right, hlength, hlength', rfl⟩ := (h.accepts_iff _).1 haccepts
    simp only [List.forall_mem_append] at hpart
    exact ⟨left, right, ⟨hlength, hpart.1.1⟩, ⟨hlength', hpart.2⟩, rfl⟩

/-- A clause is matched to its end first. -/
theorem eq_of_head?_rests (hfirst : (tier.pattern.rests text).head? = some after) : after = text.dropWhile holds := by
  rw [h.pattern_eq] at hfirst
  exact Pattern.eq_of_head?_rests_around h.middle_holds hfirst

theorem exists_front? (hfirst : (tier.pattern.rests text).head? = some after) :
    ∃ part, tier.front? some text = some (part, after) := by
  obtain ⟨part, hpart, haccepts, rfl⟩ := h.mem_rests_iff.1 (List.mem_of_head? hfirst)
  have hlonger : tier.accepts (((part ++ after).takeWhile holds).map some) = true := by
    rw [List.takeWhile_append_of_pos hpart, List.map_append]
    exact accepts_mono List.infix_append_left haccepts
  refine ⟨(part ++ after).takeWhile holds, ?_⟩
  simp only [h.front?_eq, segment?, h.separates_eq, Bool.not_not]
  rw [if_pos hlonger, ← h.eq_of_head?_rests hfirst]

theorem mem_rests_of_front? (hfront : tier.front? some text = some (part, after)) : after ∈ tier.pattern.rests text := by
  rw [h.front?_eq] at hfront
  obtain ⟨rfl, haccepts, hpart, -⟩ := append_of_segment? hfront
  refine h.mem_rests_iff.2 ⟨part, fun c hc => ?_, haccepts, rfl⟩
  simpa [h.separates_eq] using hpart c hc

end LiftsAround

section Match
variable {tier : Tier} {text part after : Text} {cut : Cut Char}

theorem isInside_quote (quote c : Char) : decide (c ≠ quote) = isInside some quote quote c := by
  simp [isInside]

theorem isInside_parenthesis (c : Char) : (! isParenthesis c) = isInside some '(' ')' c := by
  simp [isInside, isParenthesis]

theorem exists_front?_of_head?_rests (h : (tier.pattern.rests text).head? = some after) :
    ∃ part, tier.front? some text = some (part, after) := by
  cases tier with
  | literal quote =>
    obtain ⟨part, -, hpart⟩ := enclosed?_of_mem_rests (isInside_quote quote) (List.mem_of_head? h)
    exact ⟨part, hpart⟩
  | group =>
    obtain ⟨part, hlength, hpart⟩ := enclosed?_of_mem_rests isInside_parenthesis (List.mem_of_head? h)
    exact ⟨part, Option.filter_eq_some_iff.2 ⟨hpart, decide_eq_true hlength⟩⟩
  | comparison symbol => exact (liftsAround_comparison symbol).exists_front? h
  | conjunction => exact liftsAround_conjunction.exists_front? h

theorem mem_rests_of_front? (h : tier.front? some text = some (part, after)) : after ∈ tier.pattern.rests text := by
  cases tier with
  | literal quote =>
    obtain ⟨-, a, inner, b, rfl, -⟩ := append_of_enclosed? h
    exact mem_rests_of_enclosed? (isInside_quote quote) h (by simp)
  | group =>
    obtain ⟨hpart, hlength⟩ := Option.filter_eq_some_iff.1 h
    exact mem_rests_of_enclosed? isInside_parenthesis hpart (of_decide_eq_true hlength)
  | comparison symbol => exact (liftsAround_comparison symbol).mem_rests_of_front? h
  | conjunction => exact liftsAround_conjunction.mem_rests_of_front? h

/-- A tier takes off the front what its pattern matches there. -/
theorem head?_rests (tier : Tier) (text : Text) :
    (tier.pattern.rests text).head? = (tier.front? some text).map (·.2) := by
  cases hfirst : (tier.pattern.rests text).head? with
  | none =>
    cases hfront : tier.front? some text with
    | none => rfl
    | some taken =>
      have hmem : taken.2 ∈ tier.pattern.rests text := mem_rests_of_front? hfront
      rw [List.head?_eq_none_iff.1 hfirst] at hmem
      cases hmem
  | some after =>
    obtain ⟨part, hpart⟩ := exists_front?_of_head?_rests hfirst
    rw [hpart]
    rfl

theorem front?_eq_none_iff : tier.front? some text = none ↔ tier.pattern.rests text = [] := by
  rw [← List.head?_eq_none_iff, head?_rests, Option.map_eq_none_iff]

theorem front?_append_iff :
    tier.front? some (part ++ after) = some (part, after) ↔
      (tier.pattern.rests (part ++ after)).head? = some after := by
  rw [head?_rests, Option.map_eq_some_iff]
  constructor
  · exact fun h => ⟨_, h, rfl⟩
  · rintro ⟨⟨part', after'⟩, hfront, rfl⟩
    rw [hfront, List.append_cancel_right (append_of_front? hfront)]

/-- What the search of a tier cuts out is the match of its pattern. -/
theorem matches_iff : tier.pattern.Matches text cut ↔ tier.search? some text = some cut := by
  constructor
  · rintro ⟨rfl, hfirst, hleftmost⟩
    have hbefore : ∀ u c v, cut.before = u ++ c :: v →
        tier.front? some (c :: (v ++ (cut.part ++ cut.after))) = none := by
      intro u c v hu
      have hmem : c :: v ∈ cut.before.tails := (List.mem_tails _ _).2 ⟨u, hu.symm⟩
      rw [front?_eq_none_iff, ← hleftmost _ hmem (List.cons_ne_nil c v), List.append_assoc, List.cons_append]
    rw [List.append_assoc, search?_append_of_front?_eq_none hbefore, search?_of_front? (front?_append_iff.2 hfirst),
      Option.map_some, List.append_nil]
  · intro h
    obtain ⟨hsplit, hfront⟩ := append_of_search? h
    refine ⟨hsplit, front?_append_iff.1 hfront, fun front hmem hne => ?_⟩
    rw [List.append_assoc, ← front?_eq_none_iff]
    exact front?_eq_none_of_suffix h ((List.mem_tails _ _).1 hmem) hne

/-- Where the pattern matches nowhere, nothing is found. -/
theorem search?_eq_none_iff : tier.search? some text = none ↔ ∀ rest, rest <:+ text → tier.pattern.rests rest = [] := by
  constructor
  · rintro h rest ⟨front, rfl⟩
    exact front?_eq_none_iff.1 (front?_eq_none_of_search? h)
  · intro h
    cases hcut : tier.search? some text with
    | none => rfl
    | some cut =>
      obtain ⟨hsplit, hfirst, -⟩ := matches_iff.2 hcut
      rw [h (cut.part ++ cut.after) ⟨cut.before, by rw [hsplit, List.append_assoc]⟩] at hfirst
      cases hfirst

end Match

end Tier

/-! ## Replacing the match -/

/-- The cut takes out a whole run of characters of a class. -/
structure Cut.IsMaximalRun (holds : Char → Bool) (cut : Cut Char) : Prop where
  ne_nil : cut.part ≠ []
  inside : ∀ c ∈ cut.part, holds c = true
  before : ∀ c ∈ cut.before.getLast?, holds c = false
  after : ∀ c ∈ cut.after.head?, holds c = false

/-- A clause is matched as a whole. -/
theorem Tier.LiftsAround.isMaximalRun {tier : Tier} {middle : Text} {least : Nat} {holds : Char → Bool}
    (h : tier.LiftsAround middle least holds) (hne : middle ≠ []) {text : Text} {cut : Cut Char}
    (hcut : tier.pattern.Matches text cut) : cut.IsMaximalRun holds := by
  obtain ⟨part, hinside, haccepts, hpart⟩ := h.mem_rests_iff.1 (List.mem_of_head? hcut.first)
  obtain rfl := List.append_cancel_right hpart
  refine ⟨?_, hinside, fun c hc => ?_, fun c hc => ?_⟩
  · obtain ⟨left, right, -, -, hsplit⟩ := (h.accepts_iff _).1 haccepts
    simp [hsplit, hne]
  · -- a character more in front would have been matched as well
    obtain ⟨front, hfront⟩ := List.getLast?_eq_some_iff.1 hc
    by_contra hholds
    have hmem : [c] ∈ cut.before.tails := (List.mem_tails _ _).2 ⟨front, hfront.symm⟩
    have hlonger : cut.after ∈ tier.pattern.rests ([c] ++ cut.part ++ cut.after) :=
      h.mem_rests_iff.2 ⟨[c] ++ cut.part, List.forall_mem_cons.2 ⟨eq_true_of_ne_false hholds, hinside⟩,
        accepts_mono (List.infix_cons List.infix_rfl) haccepts, rfl⟩
    rw [hcut.leftmost _ hmem (List.cons_ne_nil c [])] at hlonger
    cases hlonger
  · have hend := List.head?_dropWhile_not holds (cut.part ++ cut.after)
    rw [← h.eq_of_head?_rests hcut.first, Option.mem_def.1 hc] at hend
    simpa using hend

namespace Tier

/-- A tier finds the match of its pattern, and replacing the first occurrence of the matched text
replaces the match, however often the same text occurs. A comparison is matched with its whole
clause. -/
theorem replaceFirst_matched (tier : Tier) (text : Text) :
    (∀ part, tier.find? text = some part ↔ ∃ cut, tier.pattern.Matches text cut ∧ cut.part = part) ∧
    (tier.find? text = none ↔ ∀ rest, rest <:+ text → tier.pattern.rests rest = []) ∧
    ∀ cut, tier.pattern.Matches text cut →
      (∀ before after, text = before ++ cut.part ++ after → cut.before.length ≤ before.length) ∧
      (∀ key, text.replaceFirst cut.part key = cut.before ++ key ++ cut.after) ∧
      ∀ symbol, tier = comparison symbol → cut.IsMaximalRun (! isConnective ·) := by
  refine ⟨fun part => ?_, ?_, fun cut hcut => ⟨fun before after htext => ?_, fun key => ?_, ?_⟩⟩
  · simp only [find?_eq_search?, Option.map_eq_some_iff, matches_iff]
  · rw [find?_eq_search?, Option.map_eq_none_iff, search?_eq_none_iff]
  · exact Text.length_le_of_cut? (cut?_of_search? (matches_iff.1 hcut)) htext
  · exact replaceFirst_of_search? (matches_iff.1 hcut) key
  · rintro symbol rfl
    exact (liftsAround_comparison symbol).isMaximalRun symbol.symbol_ne_nil hcut

/-- The first clause has nothing in front of its symbol, and the second one occurs twice more,
once inside another clause. -/
theorem replaceFirst_matched_repeated :
    let text : Text := "=b|a=b&aa=b|a=b".toList
    let cut : Cut Char := ⟨"=b|".toList, "a=b".toList, "&aa=b|a=b".toList⟩
    (comparison .equal).pattern.Matches text cut ∧
      text.replaceFirst cut.part "x1_f0".toList = "=b|x1_f0&aa=b|a=b".toList := by
  have h : (comparison .equal).pattern.Matches "=b|a=b&aa=b|a=b".toList
      ⟨"=b|".toList, "a=b".toList, "&aa=b|a=b".toList⟩ := by decide
  exact ⟨h, ((replaceFirst_matched _ _).2.2 _ h).2.1 _⟩

-- of two places for the symbol the last one is tried first, and the clause is matched to its end
example : (comparison .equal).pattern.rests "a==b&c".toList = ["&c".toList, "&c".toList, "b&c".toList] := by decide

end Tier

end FilterQuery
