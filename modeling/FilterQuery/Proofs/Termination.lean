import FilterQuery.Proofs.Passage.Exhausted
import Mathlib.Data.List.Count
/-!
# Tokenizing ends

A key may be longer than what it stands for, so that the length of a text says nothing about
the lifts to come. `Text.capacity` does: it counts the quotes, in pairs, and the other
characters that tiers go by. Where the suffix has none of them, no key has, and every lift
takes some away.

`Minter.Runs` is a run of the tiers, without fuel. In the content of a group nothing is left of
literals and groups, which `Minter.Ready` says of every place of a run, so that runs nest once.
`Tokenized.runs_ofText` says that there is a run for every input, and bounds its entries.
-/

namespace FilterQuery

/-- The characters that tiers go by. -/
def reserved : List Char := ['\'', '"', '(', ')', '&', '|', '<', '>', '=', '~']

/-- The suffix has no characters that tiers go by. -/
def Suffix.Inert (suffix : Text) : Prop := ∀ c ∈ reserved, c ∉ suffix

/-- A bound for the number of lifts that a text holds. -/
def Text.capacity (text : Text) : Nat :=
  text.count '\'' / 2 + text.count '"' / 2 + text.count '(' + text.countP (· ∈ ['<', '>', '=', '~']) +
    text.count '&'

namespace Minter

/-- A run of the tiers to its end. In the content of a group, tiers lift nothing but clauses. -/
inductive Runs : (inGroup : Bool) → List Tier → Minter → Text → Text × Minter → Prop
  | done {inGroup : Bool} {minter : Minter} {text : Text} : Runs inGroup [] minter text (text, minter)
  | pass {inGroup : Bool} {tier : Tier} {tiers : List Tier} {minter : Minter} {text : Text}
      {result : Text × Minter} :
      tier.find? text = none → Runs inGroup tiers minter text result →
      Runs inGroup (tier :: tiers) minter text result
  | lift {inGroup : Bool} {tier : Tier} {tiers : List Tier} {minter : Minter} {text part : Text}
      {result : Text × Minter} :
      tier.find? text = some part → tier ≠ .group → (inGroup = true → tier.liftsClauses = true) →
      Runs inGroup (tier :: tiers) (minter.mint.store tier minter.next (tier.stored part))
        (text.replaceFirst part minter.next) result →
      Runs inGroup (tier :: tiers) minter text result
  | group {tiers : List Tier} {minter : Minter} {text part : Text} {content result : Text × Minter} :
      Tier.group.find? text = some part → Runs true Tier.all minter.mint part.interior content →
      Runs false (.group :: tiers) (content.2.store .group minter.next content.1.dropBlanks)
        (text.replaceFirst part minter.next) result →
      Runs false (.group :: tiers) minter text result

end Minter

/-! ## Inert keys -/

theorem isKeyChar_of_mem_reserved : ∀ c ∈ reserved, isKeyChar c = false := by
  have h : reserved.all (! isKeyChar ·) = true := by decide
  simpa using h

theorem Suffix.inert_of_isHex {suffix : Text} (h : Suffix.IsHex suffix) : Suffix.Inert suffix := by
  intro c hc hm
  have hkey : isKeyChar c = true := by simp [isKeyChar, List.all_eq_true.1 h c hm]
  rw [isKeyChar_of_mem_reserved c hc] at hkey
  cases hkey

theorem Suffix.Inert.not_mem_key {suffix : Text} (h : Suffix.Inert suffix) (n : Nat) :
    ∀ c ∈ reserved, c ∉ Minter.key suffix n := by
  intro c hc hm
  have hempty : Suffix.IsHex [] := rfl
  have hfront : c ∉ Minter.key [] n := FilterQuery.not_mem_key hempty (isKeyChar_of_mem_reserved c hc) n
  have hsplit : Minter.key suffix n = Minter.key [] n ++ suffix := by simp [Minter.key]
  rw [hsplit, List.mem_append] at hm
  exact hm.elim hfront (h c hc)

/-! ## Capacity -/

namespace Text

/-- A part leaves room for what stands beside it. -/
theorem capacity_append_le (before part after : Text) :
    capacity (before ++ after) + capacity part ≤ capacity (before ++ part ++ after) := by
  simp only [capacity, List.count_append, List.countP_append]
  omega

theorem capacity_le_length (text : Text) : text.capacity ≤ text.length := by
  have hcounts : text.count '\'' + text.count '"' + text.count '(' + text.countP (· ∈ ['<', '>', '=', '~']) +
      text.count '&' ≤ text.length := by
    induction text with
    | nil => rfl
    | cons c text ih =>
      have hone : (if c = '\'' then 1 else 0) + (if c = '"' then 1 else 0) + (if c = '(' then 1 else 0) +
          (if c ∈ ['<', '>', '=', '~'] then 1 else 0) + (if c = '&' then 1 else 0) ≤ 1 := by
        by_cases hc : c ∈ ['\'', '"', '(', '&', '<', '>', '=', '~']
        · simp only [List.mem_cons, List.not_mem_nil, or_false] at hc
          rcases hc with rfl | rfl | rfl | rfl | rfl | rfl | rfl | rfl <;> decide
        · simp only [List.mem_cons, not_or] at hc
          simp [hc]
      simp only [List.count_cons, List.countP_cons, beq_iff_eq, decide_eq_true_eq, List.length_cons]
      omega
  unfold capacity
  omega

theorem capacity_append_inert {key : Text} (h : ∀ c ∈ reserved, c ∉ key) (before after : Text) :
    capacity (before ++ key ++ after) = capacity (before ++ after) := by
  have hcount : ∀ c ∈ reserved, key.count c = 0 := fun c hc => List.count_eq_zero_of_not_mem (h c hc)
  have hmarks : key.countP (· ∈ ['<', '>', '=', '~']) = 0 := by
    refine List.countP_eq_zero.2 fun c hm hc => ?_
    have hreserved : ['<', '>', '=', '~'] ⊆ reserved := by decide
    exact h c (hreserved (of_decide_eq_true hc)) hm
  simp only [capacity, List.count_append, List.countP_append, hmarks, hcount '\'' (by decide),
    hcount '"' (by decide), hcount '(' (by decide), hcount '&' (by decide), Nat.add_zero]

end Text

/-! ## One lift -/

theorem Comparison.exists_mark (symbol : Comparison) : ∃ c ∈ symbol.symbol, c ∈ ['<', '>', '=', '~'] := by
  have h : symbol.symbol.any (· ∈ ['<', '>', '=', '~']) = true := by cases symbol <;> decide
  obtain ⟨c, hc, hmark⟩ := List.any_eq_true.1 h
  exact ⟨c, hc, of_decide_eq_true hmark⟩

namespace Tier

variable {tier : Tier} {text part : Text}

/-- What a tier finds is cut out where it takes it off the front of the rest. -/
theorem exists_cut (h : tier.find? text = some part) :
    ∃ before after, text = before ++ part ++ after ∧ tier.front? some (part ++ after) = some (part, after) ∧
      ∀ key, text.replaceFirst part key = before ++ key ++ after := by
  rw [find?_eq_search?, Option.map_eq_some_iff] at h
  obtain ⟨cut, hcut, rfl⟩ := h
  obtain ⟨hsplit, hfront⟩ := append_of_search? hcut
  exact ⟨cut.before, cut.after, hsplit, hfront, replaceFirst_of_search? hcut⟩

theorem count_of_find?_literal {quote : Char} (h : (literal quote).find? text = some part) :
    part.count quote = 2 := by
  obtain ⟨before, after, -, hfront, -⟩ := exists_cut h
  obtain ⟨-, a, inner, b, rfl, ha, hb, hinner⟩ := append_of_enclosed? hfront
  obtain rfl : a = quote := Option.some.inj ha
  obtain rfl : b = a := Option.some.inj hb
  have hno : inner.count b = 0 := by
    refine List.count_eq_zero_of_not_mem fun hm => ?_
    simpa [isInside] using hinner b hm
  simp [hno]

theorem find?_literal_eq_none_iff {quote : Char} : (literal quote).find? text = none ↔ text.count quote ≤ 1 := by
  constructor
  · intro h
    rw [find?_eq_search?, Option.map_eq_none_iff] at h
    have hexhausted : (literal quote).Exhausted some text := exhausted_of_search? h nofun
    by_contra hcount
    have htwo : (List.replicate 2 quote).Sublist text := List.replicate_sublist_iff.2 (by omega)
    exact hexhausted (htwo.map some)
  · intro h
    cases hfind : (literal quote).find? text with
    | none => rfl
    | some part =>
      obtain ⟨before, after, rfl, -⟩ := exists_cut hfind
      rw [List.count_append, List.count_append, count_of_find?_literal hfind] at h
      omega

/-- A part that is no group takes away room for one lift. -/
theorem one_le_capacity (htier : tier ∈ all) (hg : tier ≠ .group) (h : tier.find? text = some part) :
    1 ≤ part.capacity := by
  obtain ⟨before, after, -, hfront, -⟩ := exists_cut h
  cases tier with
  | group => exact absurd rfl hg
  | literal quote =>
    have hcount := count_of_find?_literal h
    obtain rfl | rfl : quote = '\'' ∨ quote = '"' := by simpa [all] using htier
    all_goals
      unfold Text.capacity
      omega
  | comparison symbol =>
    obtain ⟨-, haccepts, -⟩ := append_of_segment? hfront
    obtain ⟨u, w, v, -, -, rfl, hw⟩ := accepts_comparison_iff.1 haccepts
    obtain rfl : w = symbol.symbol := List.map_injective_iff.2 (Option.some_injective _) hw
    obtain ⟨c, hc, hmark⟩ := symbol.exists_mark
    have hpos : 0 < (u ++ symbol.symbol ++ v).countP (· ∈ ['<', '>', '=', '~']) :=
      List.countP_pos_iff.2 ⟨c, by simp [hc], decide_eq_true hmark⟩
    unfold Text.capacity
    omega
  | conjunction =>
    obtain ⟨-, haccepts, -⟩ := append_of_segment? hfront
    have hm : '&' ∈ part := by simpa using accepts_conjunction_iff.1 haccepts
    have hpos : 0 < part.count '&' := List.count_pos_iff.2 hm
    unfold Text.capacity
    omega

theorem eq_of_find?_group (h : group.find? text = some part) :
    ∃ inner, part = '(' :: inner ++ [')'] ∧ '(' ∉ inner := by
  obtain ⟨before, after, -, hfront, -⟩ := exists_cut h
  obtain ⟨a, inner, b, rfl, ha, hb, -, hinner⟩ := eq_of_front?_group hfront
  obtain rfl := Option.some.inj ha
  obtain rfl := Option.some.inj hb
  exact ⟨inner, rfl, fun hm => by simpa [isInside] using hinner _ hm⟩

/-- A group takes away room for one lift apart from those in it. -/
theorem capacity_interior_lt (h : group.find? text = some part) : part.interior.capacity < part.capacity := by
  obtain ⟨inner, rfl, -⟩ := eq_of_find?_group h
  simp [Text.interior, Text.capacity, List.count_append, List.countP_append]

end Tier

/-! ## Runs -/

namespace Minter

variable {inGroup : Bool} {tier : Tier} {tiers : List Tier} {minter : Minter} {text part : Text}
  {result : Text × Minter}

/-- A run has one outcome. -/
theorem Runs.det {other : Bool} {first second : Text × Minter} (h : Runs inGroup tiers minter text first)
    (h' : Runs other tiers minter text second) : first = second := by
  induction h generalizing other second with
  | done =>
    cases h'
    rfl
  | pass hfind _ ih =>
    cases h' with
    | pass _ hrest => exact ih hrest
    | lift hfind' => simp [hfind] at hfind'
    | group hfind' => simp [hfind] at hfind'
  | lift hfind hg _ _ ih =>
    cases h' with
    | pass hfind' => simp [hfind] at hfind'
    | lift hfind' _ _ hrest =>
      obtain rfl := Option.some.inj (hfind.symm.trans hfind')
      exact ih hrest
    | group => exact absurd rfl hg
  | group hfind _ _ ihc ih =>
    cases h' with
    | pass hfind' => simp [hfind] at hfind'
    | lift _ hg => exact absurd rfl hg
    | group hfind' hcontent hrest =>
      obtain rfl := Option.some.inj (hfind.symm.trans hfind')
      obtain rfl := ihc hcontent
      exact ih hrest

/-- In the content of a group, the tiers of literals and groups find nothing. -/
theorem Runs.find?_eq_none (h : Runs true (tier :: tiers) minter text result) (htier : tier.liftsClauses = false) :
    tier.find? text = none := by
  cases h with
  | pass hfind => exact hfind
  | lift _ _ hlifts => simp [hlifts] at htier

theorem Runs.suffix_eq (h : Runs inGroup tiers minter text result) : result.2.suffix = minter.suffix := by
  induction h with
  | done => rfl
  | pass _ _ ih => exact ih
  | lift _ _ _ _ ih => exact ih
  | group _ _ _ ihc ih => exact ih.trans ihc

/-- What holds at every place of a run: the tiers that are left are the last ones, and those that
had their turn, or have none in the content of a group, have no delimiters left. -/
structure Ready (inGroup : Bool) (tiers : List Tier) (text : Text) : Prop where
  suffix : tiers <:+ Tier.all
  quotes : ∀ quote, Tier.literal quote ∈ Tier.all → inGroup = true ∨ Tier.literal quote ∉ tiers →
    text.count quote ≤ 1
  parentheses : inGroup = true → '(' ∉ text

theorem ready_all (text : Text) : Ready false Tier.all text :=
  ⟨List.suffix_rfl, fun _ hm h => absurd hm (h.resolve_left nofun), nofun⟩

theorem Ready.pass (h : Ready inGroup (tier :: tiers) text) (hfind : tier.find? text = none) :
    Ready inGroup tiers text := by
  refine ⟨(List.suffix_cons tier tiers).trans h.suffix, fun quote hm hdone => ?_, h.parentheses⟩
  by_cases hquote : tier = .literal quote
  · subst hquote
    exact Tier.find?_literal_eq_none_iff.1 hfind
  · exact h.quotes quote hm (hdone.imp_right fun hno hmem => (List.mem_cons.1 hmem).elim (hquote ·.symm) hno)

/-- Inside a group, only clauses are lifted. -/
theorem Ready.liftsClauses (h : Ready true (tier :: tiers) text) (hfind : tier.find? text = some part) :
    tier.liftsClauses = true := by
  cases tier with
  | literal quote =>
    have hcount := h.quotes quote (h.suffix.subset List.mem_cons_self) (.inl rfl)
    rw [Tier.find?_literal_eq_none_iff.2 hcount] at hfind
    cases hfind
  | group =>
    obtain ⟨before, after, rfl, -⟩ := Tier.exists_cut hfind
    obtain ⟨inner, rfl, -⟩ := Tier.eq_of_find?_group hfind
    exact absurd (by simp) (h.parentheses rfl)
  | comparison symbol => rfl
  | conjunction => rfl

/-- The content of a group has no parentheses, and no more quotes than stand around it. -/
theorem Ready.content (h : Ready false (.group :: tiers) text) (hfind : Tier.group.find? text = some part) :
    Ready true Tier.all part.interior := by
  obtain ⟨before, after, rfl, -⟩ := Tier.exists_cut hfind
  obtain ⟨inner, rfl, hinner⟩ := Tier.eq_of_find?_group hfind
  have hinterior : Text.interior ('(' :: inner ++ [')']) = inner := by simp [Text.interior]
  rw [hinterior]
  refine ⟨List.suffix_rfl, fun quote hm _ => ?_, fun _ => hinner⟩
  have hlater : Tier.all.Pairwise fun a b => a = .group → b.liftsClauses = true := by
    simp [Tier.all, Tier.liftsClauses]
  have hdone : Tier.literal quote ∉ .group :: tiers := by
    intro hm
    have htiers := (List.pairwise_cons.1 (hlater.sublist h.suffix.sublist)).1
    rcases List.mem_cons.1 hm with hm | hm
    · cases hm
    · cases htiers _ hm rfl
  have hcount := h.quotes quote hm (.inr hdone)
  simp only [List.count_append, List.count_cons] at hcount
  omega

section Inert
variable (hs : Suffix.Inert minter.suffix) (hfind : tier.find? text = some part)
include hs hfind

/-- A key in place of a part brings no characters that tiers go by. -/
theorem count_replaceFirst_le {c : Char} (hc : c ∈ reserved) :
    (text.replaceFirst part minter.next).count c ≤ text.count c := by
  obtain ⟨before, after, rfl, -, hreplace⟩ := Tier.exists_cut hfind
  have hkey : minter.next.count c = 0 := List.count_eq_zero_of_not_mem (hs.not_mem_key _ c hc)
  simp only [hreplace, List.count_append]
  omega

theorem Ready.replace (h : Ready inGroup tiers text) : Ready inGroup tiers (text.replaceFirst part minter.next) := by
  refine ⟨h.suffix, fun quote hm hdone => ?_, fun hin => ?_⟩
  · have hquote : quote ∈ reserved := by
      obtain rfl | rfl : quote = '\'' ∨ quote = '"' := by simpa [Tier.all] using hm
      all_goals decide
    exact (count_replaceFirst_le hs hfind hquote).trans (h.quotes quote hm hdone)
  · have hcount := count_replaceFirst_le hs hfind (show '(' ∈ reserved by decide)
    rw [List.count_eq_zero_of_not_mem (h.parentheses hin), Nat.le_zero] at hcount
    exact List.count_eq_zero.1 hcount

/-- What a part held is gone with the part. -/
theorem capacity_replaceFirst_le :
    (text.replaceFirst part minter.next).capacity + part.capacity ≤ text.capacity := by
  obtain ⟨before, after, rfl, -, hreplace⟩ := Tier.exists_cut hfind
  have hkey : ∀ c ∈ reserved, c ∉ minter.next := hs.not_mem_key _
  rw [hreplace, Text.capacity_append_inert hkey]
  exact Text.capacity_append_le before part after

end Inert

/-- Rewriting with fuel enough is a run. -/
theorem runs_rewrite {fuel : Nat} (hs : Suffix.Inert minter.suffix) (h : Ready inGroup tiers text)
    (hfuel : 13 * text.capacity + tiers.length < fuel) :
    Runs inGroup tiers minter text (rewrite fuel tiers minter text) := by
  induction fuel generalizing inGroup tiers minter text with
  | zero => omega
  | succ fuel ih =>
    cases tiers with
    | nil => exact .done
    | cons tier tiers =>
      have htier : tier ∈ Tier.all := h.suffix.subset List.mem_cons_self
      rw [List.length_cons] at hfuel
      cases hfind : tier.find? text with
      | none =>
        rw [rewrite_pass hfind]
        exact .pass hfind (ih hs (h.pass hfind) (by omega))
      | some part =>
        have hreplace := capacity_replaceFirst_le hs hfind
        by_cases hg : tier = .group
        · subst hg
          cases inGroup with
          | true => cases h.liftsClauses hfind
          | false =>
            have hinterior := Tier.capacity_interior_lt hfind
            have hlength : Tier.all.length = 12 := rfl
            have hcontent := @ih true Tier.all minter.mint part.interior hs (h.content hfind) (by omega)
            rw [rewrite_group hfind]
            refine .group hfind hcontent (ih ?_ (h.replace hs hfind) (by simp only [List.length_cons]; omega))
            exact hcontent.suffix_eq.symm ▸ hs
        · have hpart := Tier.one_le_capacity htier hg hfind
          have hlifts : inGroup = true → tier.liftsClauses = true := by
            rintro rfl
            exact h.liftsClauses hfind
          rw [rewrite_lift hfind hg]
          exact .lift hfind hg hlifts (ih hs (h.replace hs hfind) (by simp only [List.length_cons]; omega))

/-- A run notes down no more lifts than the text holds. -/
theorem Runs.length_le (h : Runs inGroup tiers minter text result) (ht : tiers ⊆ Tier.all)
    (hs : Suffix.Inert minter.suffix) :
    result.2.newestFirst.length + result.1.capacity ≤ minter.newestFirst.length + text.capacity := by
  induction h with
  | done => rfl
  | pass hfind _ ih => exact ih (List.subset_of_cons_subset ht) hs
  | lift hfind hg _ _ ih =>
    have hrest := ih ht hs
    have hreplace := capacity_replaceFirst_le hs hfind
    have hpart := Tier.one_le_capacity (ht List.mem_cons_self) hg hfind
    simp only [store, mint, List.length_cons] at hrest
    omega
  | group hfind hcontent _ ihc ih =>
    have hcontent' := ihc (List.Subset.refl _) hs
    have hrest := ih ht (hcontent.suffix_eq.symm ▸ hs)
    have hreplace := capacity_replaceFirst_le hs hfind
    have hinterior := Tier.capacity_interior_lt hfind
    simp only [store, mint, List.length_cons] at hrest hcontent'
    omega

end Minter

/-! ## Tokenized inputs -/

namespace Tokenized

open Minter

/-- Tokenizing ends, for all suffixes that can be drawn and for all others without characters
that tiers go by: there is a run, in which the content of a group holds no groups or literals,
and with more fuel it is the same run. The entries are no more than the input has pairs of
quotes, opening parentheses, characters of comparisons and signs of conjunctions. -/
theorem runs_ofText {suffix : Text} (hs : Suffix.Inert suffix) (input : Text) :
    (∀ text drawn, Suffix.Admissible text drawn → Suffix.Inert drawn) ∧
    (∀ tier tiers minter text result, Runs true (tier :: tiers) minter text result → tier.liftsClauses = false →
      tier.find? text = none) ∧
    ∃ minter, Runs false Tier.all (.new suffix) input ((ofText suffix input).skeleton, minter) ∧
      (ofText suffix input).newestFirst = minter.newestFirst ∧
      (∀ fuel, steps suffix input ≤ fuel →
        rewrite fuel Tier.all (.new suffix) input = ((ofText suffix input).skeleton, minter)) ∧
      (ofText suffix input).table.size ≤
        input.count '\'' / 2 + input.count '"' / 2 + input.count '(' +
          input.countP (· ∈ ['<', '>', '=', '~']) + input.count '&' := by
  have hrun : ∀ fuel, steps suffix input ≤ fuel →
      Runs false Tier.all (.new suffix) input (rewrite fuel Tier.all (.new suffix) input) :=
    fun fuel hfuel => runs_rewrite hs (ready_all input) ((lt_steps input.capacity_le_length suffix).trans_le hfuel)
  have hend := hrun _ le_rfl
  refine ⟨fun text drawn h => Suffix.inert_of_isHex h.2.1, fun tier tiers minter text result h => h.find?_eq_none,
    _, hend, rfl, fun fuel hfuel => (hrun fuel hfuel).det hend, ?_⟩
  have hlength : (ofText suffix input).newestFirst.length + (ofText suffix input).skeleton.capacity ≤
      0 + input.capacity := hend.length_le (List.Subset.refl _) hs
  have hsize : (ofText suffix input).table.size = (ofText suffix input).newestFirst.length := List.length_map _
  rw [hsize]
  unfold Text.capacity at hlength
  omega

/-- There are inputs with as many entries as the bound admits. -/
theorem runs_ofText_full :
    let input := "((a = '?')&b<2)|\"&c".toList
    Suffix.Inert "!*".toList ∧ Text.capacity input = 7 ∧
      ∃ minter, Runs false Tier.all (.new "!*".toList) input ("x4_!*|x7_!*".toList, minter) ∧
        minter.newestFirst.length = 7 := by
  intro input
  have hs : ∀ c ∈ reserved, c ∉ "!*".toList := by simp [reserved]
  obtain ⟨-, -, minter, hrun, hlifts, -⟩ := runs_ofText hs input
  have hskeleton : (ofText "!*".toList input).skeleton = "x4_!*|x7_!*".toList := by decide +kernel
  have hlength : (ofText "!*".toList input).newestFirst.length = 7 := by decide +kernel
  exact ⟨hs, by decide, minter, hskeleton ▸ hrun, hlifts ▸ hlength⟩

end Tokenized

end FilterQuery
