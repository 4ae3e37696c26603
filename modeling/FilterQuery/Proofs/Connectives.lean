import FilterQuery.Proofs.Passage.Exhausted
import FilterQuery.Proofs.Precedence
/-!
# The order of the connectives

The compiler looks for `&` before it looks for `|`, so that in a raw text `|` would bind
tighter. It does not matter, because the tokenizer leaves no text with both: a skeleton and
the content of a group have no `&`, and what a comparison or a conjunction stands for has no
`|`. A literal may have both, but is read before connectives are looked for.

`Passage.Unmixed` is what each text is like, and `Passage.unmixed_rewrite` the invariant
over a run of the tiers. `Table.compileWithinIn` compiles with the connectives in any order,
and `Tokenized.compileWithin_order` says that no order makes a difference.
-/

namespace FilterQuery

theorem find?_congr_of_unique {α : Type} {p : α → Bool} {l m : List α} (hl : ∀ a, p a = true → a ∈ l)
    (hm : ∀ a, p a = true → a ∈ m) (hunique : ∀ a b, p a = true → p b = true → a = b) : l.find? p = m.find? p := by
  cases h : m.find? p with
  | none => exact List.find?_eq_none.2 fun a _ ha => List.find?_eq_none.1 h a (hm a ha) ha
  | some a =>
    have ha := List.find?_some h
    obtain ⟨b, hb⟩ := Option.isSome_iff_exists.1 (List.find?_isSome.2 ⟨a, hl a ha, ha⟩)
    rw [hb, hunique b a (List.find?_some hb) ha]

/-! ## Connectives in an order -/

namespace Shape

/-- The clauses of a text, with the connectives looked for in the order. -/
def clausesIn? (order : List Connective) (text : Text) : Option (Shape Text) :=
  (order.find? (text.contains ·.symbol)).map fun c =>
    clauses c ((text.splitOn c.symbol).map Text.trim)

/-- The shape of a text under a clock, with the connectives looked for in the order. -/
def ofTextIn (order : List Connective) (clock : Instant) (text : Text) : Shape Text :=
  if text = "null".toList then null
  else
    let shape? := (clock.ofRelative? text).map date <|> (quoted? text).map quoted <|>
      (list? text).map list <|> comparison? text <|> clausesIn? order text
    shape?.getD (scalar text)

theorem ofTextIn_all : ofTextIn Connective.all = ofText := rfl

variable {order : List Connective} {clock : Instant} {text : Text}

/-- A text with one connective at most has the same clauses in any order. -/
theorem clausesIn?_eq (hall : ∀ connective, connective ∈ order) (h : ¬ ('&' ∈ text ∧ '|' ∈ text)) :
    clausesIn? order text = clauses? text := by
  have hunique : ∀ c d : Connective, text.contains c.symbol = true → text.contains d.symbol = true → c = d := by
    intro c d hc hd
    rw [List.contains_iff_mem] at hc hd
    cases c with
    | and =>
      cases d with
      | and => rfl
      | or => exact absurd ⟨hc, hd⟩ h
    | or =>
      cases d with
      | and => exact absurd ⟨hd, hc⟩ h
      | or => rfl
  have hfind : order.find? (text.contains ·.symbol) = Connective.all.find? (text.contains ·.symbol) := by
    refine find?_congr_of_unique (fun c _ => hall c) (fun c _ => ?_) hunique
    cases c <;> simp [Connective.all]
  rw [clausesIn?, clauses?, hfind]

/-- The order makes no difference to a text that is quoted or has one connective at most. -/
theorem ofTextIn_eq (hall : ∀ connective, connective ∈ order)
    (h : quoted? text = none → ¬ ('&' ∈ text ∧ '|' ∈ text)) : ofTextIn order clock text = ofText clock text := by
  unfold ofTextIn ofText
  cases hquoted : quoted? text with
  | some content => cases clock.ofRelative? text <;> rfl
  | none => rw [clausesIn?_eq hall (h hquoted)]

/-- A text that is split at a connective is split at the first of the order. -/
theorem ofTextIn_of_mem (hquoted : quoted? text = none) (hlist : list? text = none)
    (hcomparison : comparison? text = none) {first : Connective} (hfirst : order.head? = some first)
    (hm : first.symbol ∈ text) :
    ofTextIn order clock text = .clauses first ((text.splitOn first.symbol).map Text.trim) := by
  have hnull : text ≠ "null".toList := by
    rintro rfl
    cases first <;> simp [Connective.symbol] at hm
  have hdate : clock.ofRelative? text = none :=
    Instant.ofRelative?_eq_none (c := first.symbol) (by cases first <;> rfl) hm
  obtain ⟨rest, rfl⟩ := List.head?_eq_some_iff.1 hfirst
  have hfind : (first :: rest).find? (text.contains ·.symbol) = some first :=
    List.find?_cons_of_pos (List.contains_iff_mem.2 hm)
  rw [ofTextIn, if_neg hnull, hquoted, hlist, hcomparison, hdate, clausesIn?, hfind]
  rfl

end Shape

namespace Table

/-- Compiles a text with a number of levels to go, with the connectives looked for in the
order. -/
def compileWithinIn (order : List Connective) (table : Table) (clock : Instant) : (levels : Nat) → Text → Node
  | 0, _ => .null
  | levels + 1, text =>
    match table.resolve? text with
    | none => .null
    | some text => (Shape.ofTextIn order clock text).node id (compileWithinIn order table clock levels)

theorem compileWithinIn_all (table : Table) (clock : Instant) (levels : Nat) (text : Text) :
    table.compileWithinIn Connective.all clock levels text = table.compileWithin clock levels text := by
  induction levels generalizing text with
  | zero => rfl
  | succ levels ih =>
    have hparts : table.compileWithinIn Connective.all clock levels = table.compileWithin clock levels := funext ih
    rw [compileWithinIn, compileWithin, hparts]
    rfl

/-- The order makes no difference if it makes none to the shapes of what is looked up. -/
theorem compileWithinIn_eq {order : List Connective} {table : Table} {clock : Instant} {start : Text}
    (h : ∀ text, table.LooksUp clock start text → Shape.ofTextIn order clock text = Shape.ofText clock text)
    (levels : Nat) {text : Text} (ht : table.LooksUp clock start text) :
    table.compileWithinIn order clock levels text = table.compileWithin clock levels text := by
  induction levels generalizing text with
  | zero => rfl
  | succ levels ih =>
    rw [compileWithinIn, compileWithin]
    cases hr : table.resolve? text with
    | none => rfl
    | some final =>
      obtain ⟨hlooks, hget⟩ := (follow?_congr (fun _ _ => rfl) (table.size + 1) ht).2 final hr
      simp only [h final hlooks]
      exact Shape.node_congr fun part hm => ih (hlooks.part hget hm)

end Table

/-! ## Texts with one connective -/

namespace Passage

/-- Connectives are not looked for in the passage, because it is a quoted literal, or one of
the two does not stand in it. -/
inductive Unmixed (p : Passage) : Prop
  | quoted (content : Passage) (h : quoted? p = some content)
  | lacks (connective : Connective) (h : .char connective.symbol ∉ p)

section Unmixed
variable {tiers : List Tier} {register : Register} {clock : Instant} {p q : Passage}

/-- What a tier of comparisons or conjunctions takes lacks its separators. -/
theorem unmixed_keep {tier : Tier} (ht : tier ∈ Tier.all) (hg : tier ≠ .group) {cut : Cut Piece}
    (h : tier.search? Piece.view p = some cut) : Unmixed (tier.keep cut.part) := by
  obtain ⟨-, hf⟩ := Tier.append_of_search? h
  have clause : ∀ tier : Tier, tier.separates (some '|') = true →
      segment? Piece.view tier.separates tier.accepts (cut.part ++ cut.after) = some (cut.part, cut.after) →
      Unmixed (dropBlanks cut.part) := by
    intro tier hor hf
    obtain ⟨-, -, hpart, -⟩ := append_of_segment? hf
    refine .lacks .or fun hm => ?_
    have hno := hpart _ (dropBlanks_subset _ hm)
    rw [Piece.view, Connective.symbol, hor] at hno
    cases hno
  cases tier with
  | group => exact absurd rfl hg
  | literal quote =>
    obtain ⟨content, hcontent⟩ := exists_quoted? ht hf
    exact .quoted content hcontent
  | comparison symbol => exact clause (.comparison symbol) rfl hf
  | conjunction => exact clause .conjunction rfl hf

/-- All that a run of the tiers notes down is unmixed. -/
theorem unmixed_rewrite (ht : tiers ⊆ Tier.all) (hr : ∀ lifted ∈ register.newestFirst, Unmixed lifted.value) :
    ∀ lifted ∈ (rewrite tiers register p).2.newestFirst, Unmixed lifted.value := by
  apply forall_lifts_rewrite (P := fun lifted => Unmixed lifted.value) ht
  · intro tier hall hg register p cut h
    exact unmixed_keep hall hg h
  · -- the content of a group has been through all tiers, the one of conjunctions among them
    intro register part
    exact .lacks .and fun hm => not_mem_rewrite _ _ (dropBlanks_subset _ hm)
  · exact hr

theorem Unmixed.part (h : Unmixed p) (hq : q ∈ (shape clock p).parts) : Unmixed q := by
  cases h with
  | quoted content h =>
    rw [parts_of_quoted? h] at hq
    cases hq
  | lacks connective h =>
    exact .lacks connective fun hm => h ((infix_of_shape (Shape.parts_subset_contents _ hq)).subset hm)

/-- A passage that is split at a connective does not have the other one. -/
theorem Unmixed.not_mem_of_clauses (h : Unmixed p) {connective other : Connective} {parts : List Passage}
    (hshape : shape clock p = .clauses connective parts) (hne : other ≠ connective) : .char other.symbol ∉ p := by
  have hreads := reads_shape clock p
  rw [hshape] at hreads
  obtain ⟨found, hfind, hfound⟩ := Option.map_eq_some_iff.1 hreads
  obtain ⟨rfl, rfl⟩ := Shape.clauses.inj hfound
  cases h with
  | quoted content h =>
    have hparts : (shape clock p).parts = [] := parts_of_quoted? h
    rw [hshape] at hparts
    exact absurd (List.map_eq_nil_iff.1 hparts) (List.splitOnP_ne_nil _ _)
  | lacks lacking hno =>
    have hm : .char found.symbol ∈ p := mem_map_view_iff.1 (by simpa using List.find?_some hfind)
    have hlacking : lacking ≠ found := by
      rintro rfl
      exact hno hm
    obtain rfl : lacking = other := by
      cases lacking <;> cases other <;> cases found <;> simp_all
    exact hno

theorem LooksUp.unmixed {input : Text} (h : LooksUp clock (tokenize input).1 q) : Unmixed q := by
  have hlifts : ∀ lifted ∈ (tokenize input).2.newestFirst, Unmixed lifted.value :=
    unmixed_rewrite (List.Subset.refl _) (by simp [Register.new])
  induction h with
  | start => exact .lacks .and (not_mem_rewrite _ _)
  | value h _ => exact hlifts _ (h.known.1 ⟨_, _, _⟩ List.mem_cons_self)
  | part _ _ hm ih => exact ih.part hm

end Unmixed

end Passage

namespace Tokenized

open Passage

section Admissible
variable {input suffix : Text} (h : Suffix.Admissible input.dropBlanks suffix) {clock : Instant} {text : Text}
  (hl : (ofText suffix input).table.LooksUp clock (ofText suffix input).skeleton text)
include h hl

theorem not_both_of_looksUp (hquoted : Shape.quoted? text = none) : ¬ ('&' ∈ text ∧ '|' ∈ text) := by
  have hs : Suffix.IsHex suffix := h.2.1
  obtain ⟨q, hq, rfl⟩ := (ownsKeys_of_admissible h).looksUp clock text hl
  rw [mem_spell_iff hs (by decide), mem_spell_iff hs (by decide)]
  rintro ⟨hand, hor⟩
  cases hq.unmixed with
  | quoted content hcontent =>
    rw [quoted?_spell hs, hcontent] at hquoted
    cases hquoted
  | lacks connective hno =>
    cases connective with
    | and => exact hno hand
    | or => exact hno hor

theorem not_mem_of_looksUp_clauses {parts : List Text} (hshape : Shape.ofText clock text = .clauses .and parts) :
    '|' ∉ text := by
  have hs : Suffix.IsHex suffix := h.2.1
  obtain ⟨q, hq, rfl⟩ := (ownsKeys_of_admissible h).looksUp clock text hl
  obtain ⟨passages, hpassages⟩ : ∃ passages, shape clock q = .clauses .and passages := by
    rw [ofText_spell hs] at hshape
    cases hp : shape clock q <;> rw [hp] at hshape <;> cases hshape
    exact ⟨_, rfl⟩
  rw [mem_spell_iff hs (by decide)]
  exact hq.unmixed.not_mem_of_clauses hpassages (show Connective.or ≠ .and by decide)

end Admissible

/-- It makes no difference in which order the compiler looks for connectives. No text that it
reads beyond quotes has both, so that any order gives the same tree; and conjunctions bind
tighter, because there is none in the skeleton, and a text that is split at one has no
disjunction. A raw text with both is split at the connective that is looked for first. -/
theorem compileWithin_order {input suffix : Text} (h : Suffix.Admissible input.dropBlanks suffix) (clock : Instant) :
    let tokenized := ofText suffix input
    (∀ text, tokenized.table.LooksUp clock tokenized.skeleton text → Shape.quoted? text = none →
      ¬ ('&' ∈ text ∧ '|' ∈ text)) ∧
    (∀ order, (∀ connective, connective ∈ order) → ∀ levels,
      tokenized.table.compileWithinIn order clock levels tokenized.skeleton =
        tokenized.table.compileWithin clock levels tokenized.skeleton) ∧
    '&' ∉ tokenized.skeleton ∧
    (∀ text parts, tokenized.table.LooksUp clock tokenized.skeleton text →
      Shape.ofText clock text = .clauses .and parts → '|' ∉ text) ∧
    ∀ raw, Shape.quoted? raw = none → Shape.list? raw = none → Shape.comparison? raw = none →
      '&' ∈ raw → '|' ∈ raw →
      Shape.ofText clock raw = .clauses .and ((raw.splitOn '&').map Text.trim) ∧
        Shape.ofTextIn [.or, .and] clock raw = .clauses .or ((raw.splitOn '|').map Text.trim) := by
  intro tokenized
  refine ⟨fun text hl => not_both_of_looksUp h hl, fun order hall levels => ?_, ?_,
    fun text parts hl => not_mem_of_looksUp_clauses h hl, fun raw hquoted hlist hcomparison hand hor => ⟨?_, ?_⟩⟩
  · refine Table.compileWithinIn_eq (fun text hl => ?_) levels .start
    exact Shape.ofTextIn_eq hall (not_both_of_looksUp h hl)
  · have hs : Suffix.IsHex suffix := h.2.1
    rw [show tokenized = _ from ofText_eq hs input, mem_spell_iff hs (by decide)]
    exact not_mem_rewrite .new (Passage.ofText input)
  · rw [← Shape.ofTextIn_all]
    exact Shape.ofTextIn_of_mem hquoted hlist hcomparison rfl hand
  · exact Shape.ofTextIn_of_mem hquoted hlist hcomparison rfl hor

/-- A literal keeps its connectives, and a group its disjunction. The raw text `a&b|c` is
split at `&`, so that its disjunction binds tighter. -/
theorem compileWithin_order_nested :
    let input := "(a=1|b=2)&c='x&|'|d=3".toList
    let clock : Instant := ⟨0, 0, by decide, by decide, by decide⟩
    let tokenized := ofText "f0".toList input
    let clause (name : String) (value : Int) := Node.ofField name (.number (.integer value))
    Suffix.Admissible (Text.dropBlanks input) "f0".toList ∧
      tokenized.table.compileWithinIn [.or, .and] clock (defaultCeiling + 1) tokenized.skeleton =
        tokenized.tree clock ∧
      tokenized.tree clock = .ofOperator .or (.list [.ofOperator .and (.list [
        .ofOperator .or (.list [clause "a" 1, clause "b" 2]), .ofField "c" (.string "x&|")]), clause "d" 3]) ∧
      Shape.ofText clock "a&b|c".toList = .clauses .and ["a".toList, "b|c".toList] := by
  have h : Suffix.Admissible (Text.dropBlanks "(a=1|b=2)&c='x&|'|d=3".toList) "f0".toList := by decide
  have hall : ∀ connective : Connective, connective ∈ [.or, .and] := fun connective => by cases connective <;> decide
  have hraw := fun clock => (compileWithin_order h clock).2.2.2.2 "a&b|c".toList rfl rfl rfl (by decide) (by decide)
  exact ⟨h, (compileWithin_order h _).2.1 _ hall _, rfl, (hraw _).1⟩

end Tokenized

end FilterQuery
