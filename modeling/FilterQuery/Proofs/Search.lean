import FilterQuery.Token.Tier
import Mathlib.Data.List.Infix
import Mathlib.Data.List.TakeWhile
import Mathlib.Data.Option.Basic
/-!
# How a tier searches

A tier is a pattern that is tried at every place of a text, from left to right.
`Tier.front?` is what a tier takes off the front of a list of signs, and
`Tier.search?` cuts the list where it first takes anything. Signs are the
characters of a text, or the pieces of a passage; `view` is the character that a
sign shows, if it shows one.

`Tier.find?_eq_search?` says that the part a tier finds in a text is the one that
this search cuts out, and `Tier.replaceFirst_of_search?` that replacing the first
occurrence of that part replaces it where it was found.
-/

namespace FilterQuery

theorem Comparison.symbol_ne_nil (symbol : Comparison) : symbol.symbol ≠ [] := by
  cases symbol <;> simp [Comparison.symbol]

/-! ## Infixes -/

theorem infix_append_cons {α : Type} {w l r : List α} {a : α} (ha : a ∉ w) (h : w <:+: l ++ a :: r) :
    w <:+: l ∨ w <:+: r := by
  rcases List.infix_append_iff_ne_nil.1 h with h | h | ⟨w₁, w₂, -, hne, rfl, -, hp⟩
  · exact .inl h
  · rcases List.infix_cons_iff.1 h with hp | h
    · cases w with
      | nil => exact .inr (List.nil_infix)
      | cons b w =>
        obtain ⟨rfl, -⟩ := List.cons_prefix_cons.1 hp
        simp at ha
    · exact .inr h
  · obtain ⟨b, w₂, rfl⟩ := List.exists_cons_of_ne_nil hne
    obtain ⟨rfl, -⟩ := List.cons_prefix_cons.1 hp
    simp at ha

/-- A word occurs strictly inside a list iff something stands on both its sides. -/
theorem infix_interior_iff {α : Type} {w l : List α} (hw : w ≠ []) :
    w <:+: l.tail.dropLast ↔ ∃ u v, u ≠ [] ∧ v ≠ [] ∧ l = u ++ w ++ v := by
  constructor
  · rintro ⟨u, v, h⟩
    have hne : l.tail.dropLast ≠ [] := by rw [← h]; simp [hw]
    cases l with
    | nil => simp at hne
    | cons a l =>
      have hl : l ≠ [] := by rintro rfl; simp at hne
      refine ⟨a :: u, v ++ [l.getLast hl], by simp, by simp, ?_⟩
      rw [List.tail_cons] at h
      rw [← List.append_assoc, List.cons_append, List.cons_append, h, List.cons_append,
        List.dropLast_concat_getLast]
  · rintro ⟨u, v, hu, hv, rfl⟩
    obtain ⟨a, u, rfl⟩ := List.exists_cons_of_ne_nil hu
    refine ⟨u, v.dropLast, ?_⟩
    rw [List.cons_append, List.cons_append, List.tail_cons, List.dropLast_append_of_ne_nil hv]

theorem infix_map_iff_of_injective {α β : Type} {f : α → β} (hf : f.Injective) {w l : List α} :
    w.map f <:+: l.map f ↔ w <:+: l := by
  constructor
  · intro h
    obtain ⟨l', hl', he⟩ := List.infix_map_iff.1 h
    rwa [hf.list_map he]
  · exact fun h => h.map f

/-! ## The first occurrence of a word -/

namespace Text

theorem isPrefixOf?_append (word after : Text) : word.isPrefixOf? (word ++ after) = some after := by
  induction word with
  | nil => rw [nil_isPrefixOf?, List.nil_append]
  | cons c word ih => rw [List.cons_append, cons_isPrefixOf?_cons, if_pos (beq_self_eq_true c), ih]

theorem isPrefixOf?_eq_none {word text : Text} (h : ¬ word <+: text) : word.isPrefixOf? text = none := by
  cases hp : word.isPrefixOf? text with
  | none => rfl
  | some after => exact absurd ⟨after, (append_of_isPrefixOf? hp).symm⟩ h

theorem cut?_cons_of_not_prefix {word text : Text} {c : Char} (h : ¬ word <+: c :: text) :
    cut? word (c :: text) = (cut? word text).map fun (before, after) => (c :: before, after) := by
  rw [cut?, isPrefixOf?_eq_none h]

theorem cut?_append_self (word after : Text) : cut? word (word ++ after) = some ([], after) := by
  cases h : word ++ after with
  | nil =>
    obtain ⟨rfl, rfl⟩ := List.append_eq_nil_iff.1 h
    rfl
  | cons c text => rw [cut?, ← h, isPrefixOf?_append]

theorem cut?_eq_none_iff {word text : Text} : cut? word text = none ↔ ¬ word <:+: text := by
  constructor
  · rintro h ⟨u, v, rfl⟩
    induction u with
    | nil => simp [cut?_append_self] at h
    | cons c u ih =>
      simp only [List.cons_append, cut?] at h
      split at h
      · cases h
      · exact ih (by simpa using h)
  · intro h
    cases hc : cut? word text with
    | none => rfl
    | some cut => exact absurd ⟨cut.1, cut.2, (append_of_cut? hc).symm⟩ h

/-- A cut is made at the leftmost occurrence of the word. -/
theorem length_le_of_cut? {word text before after u v : Text} (h : cut? word text = some (before, after))
    (htext : text = u ++ word ++ v) : before.length ≤ u.length := by
  induction u generalizing text before with
  | nil =>
    rw [htext, List.nil_append, cut?_append_self] at h
    rw [← (Prod.mk.inj (Option.some.inj h)).1]
  | cons c u ih =>
    rw [htext, List.cons_append, List.cons_append, cut?] at h
    split at h
    · rw [← (Prod.mk.inj (Option.some.inj h)).1]
      exact Nat.zero_le _
    · obtain ⟨⟨before, after⟩, hcut, he⟩ := Option.map_eq_some_iff.1 h
      obtain ⟨rfl, rfl⟩ := Prod.mk.inj he
      exact Nat.succ_le_succ (ih hcut rfl)

theorem occurs_iff {word text : Text} : occurs word text = true ↔ word <:+: text := by
  rw [occurs, ← not_iff_not, Bool.not_eq_true, Option.isSome_eq_false_iff, Option.isNone_iff_eq_none,
    cut?_eq_none_iff]

theorem occurs_eq_false_iff {word text : Text} : occurs word text = false ↔ ¬ word <:+: text := by
  rw [← occurs_iff, Bool.not_eq_true]

end Text

/-! ## What a tier takes off the front -/

/-- A list cut in three. -/
structure Cut (α : Type) where
  before : List α
  part : List α
  after : List α

namespace Cut
variable {α β : Type}

/-- The cut of a list with one more sign in front. -/
def cons (a : α) (cut : Cut α) : Cut α := { cut with before := a :: cut.before }

/-- The cut with every part rewritten. -/
def map (f : List α → List β) (cut : Cut α) : Cut β := ⟨f cut.before, f cut.part, f cut.after⟩

end Cut

section Front
variable {α : Type} (view : α → Option Char)

/-- The sign is none of two delimiters. -/
def isInside (opening closing : Char) (a : α) : Bool :=
  view a ≠ some opening ∧ view a ≠ some closing

/-- A delimited part at the front of a list, with the delimiters and without any
other delimiter, and what follows it. -/
def enclosed? (opening closing : Char) : List α → Option (List α × List α)
  | [] => none
  | a :: l =>
    match l.dropWhile (isInside view opening closing) with
    | [] => none
    | b :: after =>
      if view a = some opening ∧ view b = some closing then
        some (a :: l.takeWhile (isInside view opening closing) ++ [b], after)
      else none

/-- The part of a list up to the next separator, if it is a good one, and what
follows it. -/
def segment? (isSeparator : Option Char → Bool) (good : List (Option Char) → Bool) (l : List α) :
    Option (List α × List α) :=
  let part := l.takeWhile fun a => ! isSeparator (view a)
  if good (part.map view) then some (part, l.dropWhile fun a => ! isSeparator (view a)) else none

namespace Tier

/-- The signs that separate the clauses that a tier searches. -/
def separates : Tier → Option Char → Bool
  | conjunction, sign => sign = some '|'
  | _, sign => sign = some '&' ∨ sign = some '|'

/-- The clauses that a tier of operators lifts out. -/
def accepts : Tier → List (Option Char) → Bool
  | comparison symbol, signs => symbol.symbol.map some <:+: signs.tail.dropLast
  | conjunction, signs => signs.contains (some '&')
  | _, _ => false

/-- What a tier takes off the front of a list, and what it leaves. -/
def front? : Tier → List α → Option (List α × List α)
  | literal quote, l => enclosed? view quote quote l
  | group, l => (enclosed? view '(' ')' l).filter (2 < ·.1.length)
  | tier, l => segment? view tier.separates tier.accepts l

/-- The cut of a list where the tier first takes anything. -/
def search? (tier : Tier) : List α → Option (Cut α)
  | [] => none
  | a :: l =>
    match tier.front? view (a :: l) with
    | some (part, after) => some ⟨[], part, after⟩
    | none => (search? tier l).map (.cons a)

end Tier

end Front

/-! ## Cuts lose nothing -/

section Front
variable {α : Type} {view : α → Option Char}

theorem append_of_enclosed? {opening closing : Char} {l part after : List α}
    (h : enclosed? view opening closing l = some (part, after)) :
    l = part ++ after ∧ ∃ a inner b, part = a :: inner ++ [b] ∧ view a = some opening ∧
      view b = some closing ∧ ∀ c ∈ inner, isInside view opening closing c = true := by
  cases l with
  | nil => cases h
  | cons a l =>
    simp only [enclosed?] at h
    split at h
    · cases h
    · next b rest hd =>
      split at h
      · next hab =>
        obtain ⟨rfl, rfl⟩ := Prod.mk.injEq .. ▸ Option.some.inj h
        refine ⟨?_, a, _, b, rfl, hab.1, hab.2, fun c hc => List.mem_takeWhile_imp hc⟩
        have hl := List.takeWhile_append_dropWhile (p := isInside view opening closing) (l := l)
        rw [hd] at hl
        simp [hl]
      · cases h

theorem enclosed?_cons_eq_none {opening closing : Char} {a : α} (ha : view a ≠ some opening) (l : List α) :
    enclosed? view opening closing (a :: l) = none := by
  simp only [enclosed?, ha, false_and, if_false]
  split <;> rfl

theorem enclosed?_append {opening closing : Char} {inner : List α} {a b : α} (ha : view a = some opening)
    (hb : view b = some closing) (hi : ∀ c ∈ inner, isInside view opening closing c = true) (after : List α) :
    enclosed? view opening closing (a :: inner ++ b :: after) = some (a :: inner ++ [b], after) := by
  have hb' : ¬ isInside view opening closing b = true := by simp [isInside, hb]
  simp only [enclosed?, List.cons_append]
  rw [List.dropWhile_append_of_pos hi, List.dropWhile_cons_of_neg hb',
    List.takeWhile_append_of_pos hi, List.takeWhile_cons_of_neg hb']
  simp [ha, hb]

theorem append_of_segment? {isSeparator : Option Char → Bool} {good : List (Option Char) → Bool}
    {l part after : List α} (h : segment? view isSeparator good l = some (part, after)) :
    l = part ++ after ∧ good (part.map view) = true ∧ (∀ a ∈ part, isSeparator (view a) = false) ∧
      ∀ a ∈ after.head?, isSeparator (view a) = true := by
  simp only [segment?] at h
  split at h
  · next hg =>
    obtain ⟨rfl, rfl⟩ := Prod.mk.injEq .. ▸ Option.some.inj h
    refine ⟨List.takeWhile_append_dropWhile.symm, hg, fun a ha => ?_, fun a ha => ?_⟩
    · simpa using List.mem_takeWhile_imp ha
    · have := List.head?_dropWhile_not (p := fun a => ! isSeparator (view a)) l
      simp_all
  · cases h

namespace Tier

theorem accepts_conjunction_iff {signs : List (Option Char)} :
    conjunction.accepts signs = true ↔ some '&' ∈ signs := List.contains_iff_mem

theorem accepts_mono {tier : Tier} {s t : List (Option Char)} (h : s <:+: t)
    (hs : tier.accepts s = true) : tier.accepts t = true := by
  cases tier with
  | comparison symbol =>
    have hne : symbol.symbol.map some ≠ [] := by simp [symbol.symbol_ne_nil]
    simp only [accepts, decide_eq_true_eq] at hs ⊢
    obtain ⟨u, v, hu, hv, rfl⟩ := (infix_interior_iff hne).1 hs
    obtain ⟨x, y, rfl⟩ := h
    exact (infix_interior_iff hne).2 ⟨x ++ u, v ++ y, by simp [hu], by simp [hv], by simp⟩
  | conjunction =>
    rw [accepts_conjunction_iff] at hs ⊢
    exact h.subset hs
  | literal quote => cases hs
  | group => cases hs

theorem accepts_comparison_iff {symbol : Comparison} {l : List α} :
    (comparison symbol).accepts (l.map view) = true ↔
      ∃ u w v, u ≠ [] ∧ v ≠ [] ∧ l = u ++ w ++ v ∧ w.map view = symbol.symbol.map some := by
  have hne : symbol.symbol.map some ≠ [] := by simp [symbol.symbol_ne_nil]
  rw [accepts, decide_eq_true_eq, infix_interior_iff hne]
  constructor
  · rintro ⟨u, v, hu, hv, h⟩
    obtain ⟨l', v, rfl, hl', rfl⟩ := List.map_eq_append_iff.1 h
    obtain ⟨u, w, rfl, rfl, hw⟩ := List.map_eq_append_iff.1 hl'
    exact ⟨u, w, v, by simpa using hu, by simpa using hv, rfl, hw⟩
  · rintro ⟨u, w, v, hu, hv, rfl, hw⟩
    exact ⟨u.map view, v.map view, by simpa using hu, by simpa using hv, by simp [hw]⟩

theorem append_of_front? {tier : Tier} {l part after : List α}
    (h : tier.front? view l = some (part, after)) : l = part ++ after := by
  cases tier with
  | literal quote => exact (append_of_enclosed? h).1
  | group => exact (append_of_enclosed? (Option.filter_eq_some_iff.1 h).1).1
  | comparison symbol => exact (append_of_segment? h).1
  | conjunction => exact (append_of_segment? h).1

theorem search?_cons {tier : Tier} {a : α} {l : List α} :
    tier.search? view (a :: l) = match tier.front? view (a :: l) with
      | some (part, after) => some ⟨[], part, after⟩
      | none => (tier.search? view l).map (.cons a) := rfl

/-- The part that is found is the one at the front, or the one that is found behind the first sign. -/
theorem map_part_search?_cons {tier : Tier} {a : α} {l : List α} :
    (tier.search? view (a :: l)).map (·.part) =
      ((tier.front? view (a :: l)).map (·.1)).or ((tier.search? view l).map (·.part)) := by
  rw [search?_cons]
  cases tier.front? view (a :: l) with
  | some front => rfl
  | none =>
    rw [Option.map_none, Option.none_or, Option.map_map]
    rfl

theorem front?_nil (tier : Tier) : tier.front? view [] = none := by
  cases tier with
  | comparison symbol => cases symbol <;> rfl
  | _ => rfl

theorem search?_of_front? {tier : Tier} {l part after : List α}
    (h : tier.front? view l = some (part, after)) : tier.search? view l = some ⟨[], part, after⟩ := by
  cases l with
  | nil =>
    rw [front?_nil] at h
    cases h
  | cons a l => rw [search?_cons, h]

theorem search?_append_of_front?_eq_none {tier : Tier} {k l : List α}
    (h : ∀ u a v, k = u ++ a :: v → tier.front? view (a :: (v ++ l)) = none) :
    tier.search? view (k ++ l) =
      (tier.search? view l).map fun cut => { cut with before := k ++ cut.before } := by
  induction k with
  | nil => cases h : tier.search? view l <;> simp [h]
  | cons a k ih =>
    rw [List.cons_append, search?_cons, h [] a k rfl,
      ih fun u b v hu => h (a :: u) b v (by rw [hu, List.cons_append])]
    cases tier.search? view l <;> rfl

theorem append_of_search? {tier : Tier} {l : List α} {cut : Cut α} (h : tier.search? view l = some cut) :
    l = cut.before ++ cut.part ++ cut.after ∧
      tier.front? view (cut.part ++ cut.after) = some (cut.part, cut.after) := by
  induction l generalizing cut with
  | nil => cases h
  | cons a l ih =>
    simp only [search?] at h
    split at h
    · next part after hf =>
      obtain rfl := Option.some.inj h
      have hl := append_of_front? hf
      exact ⟨by simp [hl], by rw [← hl, hf]⟩
    · obtain ⟨cut, hc, rfl⟩ := Option.map_eq_some_iff.1 h
      obtain ⟨hl, hf⟩ := ih hc
      exact ⟨by simp [Cut.cons, ← hl], hf⟩

theorem front?_eq_none_of_search? {tier : Tier} {k l : List α}
    (h : tier.search? view (k ++ l) = none) : tier.front? view l = none := by
  induction k with
  | nil =>
    cases hf : tier.front? view l with
    | none => rfl
    | some cut =>
      rw [List.nil_append, search?_of_front? hf] at h
      cases h
  | cons a k ih =>
    rw [List.cons_append, search?_cons] at h
    split at h
    · cases h
    · exact ih (by simpa using h)

/-- A tier takes nothing from where its search has passed. -/
theorem front?_eq_none_of_suffix {tier : Tier} {l front : List α} {cut : Cut α} (h : tier.search? view l = some cut)
    (hfront : front <:+ cut.before) (hne : front ≠ []) :
    tier.front? view (front ++ (cut.part ++ cut.after)) = none := by
  induction l generalizing cut with
  | nil => cases h
  | cons a l ih =>
    rw [search?_cons] at h
    split at h
    · obtain rfl := Option.some.inj h
      exact absurd (List.suffix_nil.1 hfront) hne
    · next hnone =>
      obtain ⟨cut, hcut, rfl⟩ := Option.map_eq_some_iff.1 h
      rcases List.suffix_cons_iff.1 hfront with rfl | hfront
      · show tier.front? view (a :: (cut.before ++ (cut.part ++ cut.after))) = none
        rwa [← List.append_assoc, ← (append_of_search? hcut).1]
      · have hrest := ih hcut hfront
        exact hrest

/-- Every part that a tier takes holds a sign that shows a character. -/
theorem exists_view_of_front? {tier : Tier} {l part after : List α}
    (h : tier.front? view l = some (part, after)) : ∃ a ∈ part, (view a).isSome = true := by
  cases tier with
  | literal quote =>
    obtain ⟨-, a, inner, b, rfl, ha, -⟩ := append_of_enclosed? h
    exact ⟨a, by simp, by simp [ha]⟩
  | group =>
    obtain ⟨-, a, inner, b, rfl, ha, -⟩ := append_of_enclosed? (Option.filter_eq_some_iff.1 h).1
    exact ⟨a, by simp, by simp [ha]⟩
  | comparison symbol =>
    obtain ⟨-, hg, -⟩ := append_of_segment? h
    obtain ⟨u, w, v, -, -, rfl, hw⟩ := accepts_comparison_iff.1 hg
    have hne : w ≠ [] := by
      rintro rfl
      cases symbol <;> cases hw
    obtain ⟨a, w, rfl⟩ := List.exists_cons_of_ne_nil hne
    refine ⟨a, by simp, ?_⟩
    obtain ⟨c, symbols, hc⟩ := List.exists_cons_of_ne_nil symbol.symbol_ne_nil
    rw [hc] at hw
    rw [(List.cons.inj hw).1]
    rfl
  | conjunction =>
    obtain ⟨-, hg, -⟩ := append_of_segment? h
    obtain ⟨a, ha, hv⟩ := List.mem_map.1 (Tier.accepts_conjunction_iff.1 hg)
    exact ⟨a, ha, by simp [hv]⟩

/-- A group that a tier takes has content and no parenthesis in it. -/
theorem eq_of_front?_group {l part after : List α} (h : group.front? view l = some (part, after)) :
    ∃ a inner b, part = a :: inner ++ [b] ∧ view a = some '(' ∧ view b = some ')' ∧ inner ≠ [] ∧
      ∀ c ∈ inner, isInside view '(' ')' c = true := by
  obtain ⟨he, hlen⟩ := Option.filter_eq_some_iff.1 h
  obtain ⟨-, a, inner, b, rfl, ha, hb, hi⟩ := append_of_enclosed? he
  refine ⟨a, inner, b, rfl, ha, hb, ?_, hi⟩
  rintro rfl
  simp at hlen

/-- A tier takes something off every list that starts with a part it once took. -/
theorem front?_isSome_of_prefix {tier : Tier} {l part after rest : List α}
    (h : tier.front? view l = some (part, after)) : (tier.front? view (part ++ rest)).isSome = true := by
  have segment : ∀ tier : Tier, segment? view tier.separates tier.accepts l = some (part, after) →
      (segment? view tier.separates tier.accepts (part ++ rest)).isSome = true := by
    intro tier h
    obtain ⟨-, hg, hs, -⟩ := append_of_segment? h
    have hs' : ∀ a ∈ part, (! tier.separates (view a)) = true := fun a ha => by simp [hs a ha]
    rw [segment?, List.takeWhile_append_of_pos hs', List.map_append,
      if_pos (accepts_mono (List.infix_append_left) hg)]
    rfl
  cases tier with
  | literal quote =>
    obtain ⟨-, a, inner, b, rfl, ha, hb, hi⟩ := append_of_enclosed? h
    simp only [front?, List.append_assoc, List.singleton_append]
    rw [enclosed?_append ha hb hi]
    rfl
  | group =>
    obtain ⟨h, hlen⟩ := Option.filter_eq_some_iff.1 h
    obtain ⟨-, a, inner, b, rfl, ha, hb, hi⟩ := append_of_enclosed? h
    simp only [front?, List.append_assoc, List.singleton_append]
    rw [enclosed?_append ha hb hi, Option.filter_some, if_pos hlen]
    rfl
  | comparison symbol => exact segment _ h
  | conjunction => exact segment _ h

end Tier

end Front

/-! ## Searching a text -/

theorem span_isInside (opening closing : Char) (text : Text) :
    text.span (fun c => decide (c ≠ opening ∧ c ≠ closing)) =
      (text.takeWhile (isInside some opening closing), text.dropWhile (isInside some opening closing)) := by
  have hp : (fun c => decide (c ≠ opening ∧ c ≠ closing)) = isInside some opening closing := by
    funext c
    simp [isInside]
  rw [List.span_eq_takeWhile_dropWhile, hp]

namespace Tier

theorem findLiteral?_of_not_mem {quote : Char} {text : Text} (h : quote ∉ text) :
    findLiteral? quote text = none := by
  induction text with
  | nil => rfl
  | cons c text ih =>
    obtain ⟨hc, ht⟩ := List.ne_and_not_mem_of_not_mem_cons h
    rw [findLiteral?, if_neg (Ne.symm hc), ih ht]

theorem findLiteral?_eq_search? (quote : Char) (text : Text) :
    findLiteral? quote text = ((literal quote).search? some text).map (·.part) := by
  induction text with
  | nil => rfl
  | cons c text ih =>
    have hq : (fun d => decide (d ≠ quote)) = fun d => decide (d ≠ quote ∧ d ≠ quote) := by simp
    rw [findLiteral?, map_part_search?_cons, front?, enclosed?, hq, span_isInside]
    by_cases hc : c = quote
    · cases hd : text.dropWhile (isInside some quote quote) with
      | nil =>
        -- an unmatched quote is the last one of the text
        have hno : quote ∉ text := fun hm => by
          simpa [isInside] using List.dropWhile_eq_nil_iff.1 hd quote hm
        rw [findLiteral?_of_not_mem hno] at ih
        simp [hc, ih]
      | cons d after =>
        have hd' : d = quote := by
          have := List.head?_dropWhile_not (p := isInside some quote quote) text
          simpa [hd, isInside] using this
        simp [hc, hd']
    · cases text.dropWhile (isInside some quote quote) <;> simp [hc, ih]

theorem findGroup?_eq_search? (text : Text) :
    findGroup? text = (group.search? some text).map (·.part) := by
  induction text with
  | nil => rfl
  | cons c text ih =>
    have hp : (fun d => ! isParenthesis d) = fun d => decide (d ≠ '(' ∧ d ≠ ')') := by
      funext d
      simp [isParenthesis]
    rw [findGroup?, map_part_search?_cons, front?, enclosed?, groupContent?, hp, span_isInside]
    by_cases hc : c = '('
    · cases text.dropWhile (isInside some '(' ')') with
      | nil => simp [hc, ih]
      | cons d after =>
        by_cases hd : d = ')'
        · cases text.takeWhile (isInside some '(' ')') with
          | nil => simp [hc, hd, ih, Option.filter_some]
          | cons e inner => simp [hc, hd, Option.filter_some]
        · simp [hc, hd, ih]
    · cases text.dropWhile (isInside some '(' ')') <;> simp [hc, ih]

theorem head?_splitOnP {α : Type} (p : α → Bool) (l : List α) :
    (l.splitOnP p).head? = some (l.takeWhile fun a => ! p a) := by
  induction l with
  | nil => simp
  | cons a l ih =>
    rw [List.splitOnP_cons_eq_if_modifyHead]
    by_cases h : p a = true <;> simp [h, ih]

/-- A search for whole clauses finds the first of a split list that is good. -/
theorem find?_splitOnP_eq_search? {tier : Tier} {isSeparator : Char → Bool}
    (hs : ∀ c, tier.separates (some c) = isSeparator c) (hn : tier.accepts [] = false)
    (hf : ∀ l : Text, tier.front? some l = segment? some tier.separates tier.accepts l) (text : Text) :
    (text.splitOnP isSeparator).find? (fun clause => tier.accepts (clause.map some)) =
      (tier.search? some text).map (·.part) := by
  have hp : (fun c => ! tier.separates (some c)) = fun c => ! isSeparator c := by simp [hs]
  induction text with
  | nil => simp [search?, hn]
  | cons c text ih =>
    obtain ⟨clause, clauses, hsplit⟩ := List.exists_cons_of_ne_nil (List.splitOnP_ne_nil isSeparator text)
    have hclause : clause = text.takeWhile fun c => ! isSeparator c := by
      simpa [hsplit] using head?_splitOnP isSeparator text
    rw [map_part_search?_cons, hf, segment?, List.splitOnP_cons_eq_if_modifyHead, hp]
    by_cases hc : isSeparator c = true
    · simp [hc, hn, ih]
    · rw [if_neg hc, hsplit, List.modifyHead_cons, List.takeWhile_cons_of_pos (by simpa using hc),
        List.find?_cons, ← hclause]
      cases hg : tier.accepts ((c :: clause).map some) with
      | true => simp
      | false =>
        -- what a tier accepts it accepts with a character in front, so a shorter clause is none
        have hg' : tier.accepts (clause.map some) = false := by
          by_contra h
          have := accepts_mono (List.infix_cons (a := some c) List.infix_rfl) (eq_true_of_ne_false h)
          simp_all
        rw [hsplit, List.find?_cons, hg'] at ih
        simp [ih]

theorem find?_eq_search? (tier : Tier) (text : Text) :
    tier.find? text = (tier.search? some text).map (·.part) := by
  cases tier with
  | literal quote => exact findLiteral?_eq_search? quote text
  | group => exact findGroup?_eq_search? text
  | comparison symbol =>
    have hs : ∀ c, (comparison symbol).separates (some c) = isConnective c := by
      simp [separates, isConnective]
    rw [← find?_splitOnP_eq_search? hs (by cases symbol <;> rfl) (fun _ => rfl), find?, findComparison?]
    congr 1
    funext clause
    rw [Bool.eq_iff_iff, Text.occurs_iff, accepts, decide_eq_true_eq, Text.interior, ← List.map_tail,
      ← List.map_dropLast, infix_map_iff_of_injective (Option.some_injective _)]
  | conjunction =>
    have hs : ∀ c, conjunction.separates (some c) = (c == '|') := by
      intro c
      rw [Bool.eq_iff_iff]
      simp [separates]
    rw [← find?_splitOnP_eq_search? hs rfl (fun _ => rfl), find?, findConjunction?, List.splitOn_eq_splitOnP]
    congr 1
    funext clause
    simp [accepts]

/-- What a search finds first occurs where it is found. -/
theorem cut?_of_search? {tier : Tier} {text : Text} {cut : Cut Char} (h : tier.search? some text = some cut) :
    Text.cut? cut.part text = some (cut.before, cut.after) := by
  have hpart := (append_of_search? h).2
  induction text generalizing cut with
  | nil => cases h
  | cons c text ih =>
    rw [search?_cons] at h
    split at h
    · next part after hf =>
      obtain rfl := Option.some.inj h
      rw [append_of_front? hf]
      exact Text.cut?_append_self part after
    · next hf =>
      obtain ⟨cut, hc, rfl⟩ := Option.map_eq_some_iff.1 h
      -- the tier would have taken an occurrence of the part in front of the one that it found
      have hno : ¬ cut.part <+: c :: text := by
        rintro ⟨rest, hrest⟩
        have : (tier.front? some (cut.part ++ rest)).isSome = true := front?_isSome_of_prefix hpart
        rw [show cut.part ++ rest = c :: text from hrest, hf] at this
        cases this
      rw [Cut.cons, Text.cut?_cons_of_not_prefix hno, ih hc hpart]
      rfl

/-- Replacing the first occurrence of a found part replaces it where it was found. -/
theorem replaceFirst_of_search? {tier : Tier} {text : Text} {cut : Cut Char}
    (h : tier.search? some text = some cut) (new : Text) :
    text.replaceFirst cut.part new = cut.before ++ new ++ cut.after := by
  rw [Text.replaceFirst, cut?_of_search? h]

end Tier

end FilterQuery
