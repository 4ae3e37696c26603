import FilterQuery.Compile
import Mathlib.Data.Finset.Card
import Mathlib.Logic.Function.Iterate
/-!
# Chains of keys

A key leads to what is stored for it, which may be a key in its turn. Such a chain ends at a
text that is no key, or it comes to a key for the second time and goes round from there on.
All keys of a chain that ends are different, so there are at most as many as entries, and one
look-up more tells where it ends: `Table.resolve?_spec`. The table is any list of entries, with
keys that are stored again and with values that lead back.
-/

namespace FilterQuery

namespace Table

variable {table : Table} {text final : Text}

/-- What a text leads to: the value stored for a key, and itself otherwise. -/
def next (table : Table) (text : Text) : Text := (table.get? text).getD text

/-- Following the table from a text comes to a text that is no key. -/
inductive Ends (table : Table) : (text final : Text) → Prop
  | here {text : Text} (h : table.get? text = none) : Ends table text text
  | step {text value final : Text} (h : table.get? text = some value) (hrest : Ends table value final) :
      Ends table text final

/-- Following the table from a text comes to keys only, for ever. -/
def Endless (table : Table) (text : Text) : Prop :=
  ∃ chain : Nat → Text, chain 0 = text ∧ ∀ n, table.get? (chain n) = some (chain (n + 1))

theorem next_of_get? {value : Text} (h : table.get? text = some value) : table.next text = value := by
  rw [next, h, Option.getD_some]

theorem Ends.get?_eq_none (h : table.Ends text final) : table.get? final = none := by
  induction h with
  | here h => exact h
  | step _ _ ih => exact ih

/-! ## Following with a number of look-ups -/

theorem ends_of_follow? {lookups : Nat} (h : table.follow? lookups text = some final) : table.Ends text final := by
  induction lookups generalizing text with
  | zero => cases h
  | succ lookups ih =>
    rw [follow?] at h
    cases hget : table.get? text with
    | some value =>
      rw [hget] at h
      exact .step hget (ih h)
    | none =>
      rw [hget] at h
      obtain rfl := Option.some.inj h
      exact .here hget

/-- All look-ups are used up if they all find a key. -/
theorem follow?_eq_none_iff {lookups : Nat} :
    table.follow? lookups text = none ↔ ∀ n < lookups, (table.get? (table.next^[n] text)).isSome = true := by
  induction lookups generalizing text with
  | zero => exact iff_of_true rfl nofun
  | succ lookups ih =>
    rw [follow?]
    cases hget : table.get? text with
    | none =>
      refine iff_of_false nofun fun h => ?_
      have hfirst := h 0 (Nat.succ_pos lookups)
      rw [Function.iterate_zero_apply, hget] at hfirst
      cases hfirst
    | some value =>
      refine ih.trans ⟨fun h n hn => ?_, fun h n hn => ?_⟩
      · cases n with
        | zero => rw [Function.iterate_zero_apply, hget, Option.isSome_some]
        | succ n =>
          rw [Function.iterate_succ_apply, next_of_get? hget]
          exact h n (Nat.lt_of_succ_lt_succ hn)
      · have hstep := h (n + 1) (Nat.succ_lt_succ hn)
        rwa [Function.iterate_succ_apply, next_of_get? hget] at hstep

theorem endless_iff : table.Endless text ↔ ∀ n, (table.get? (table.next^[n] text)).isSome = true := by
  constructor
  · rintro ⟨chain, rfl, hchain⟩
    have hiterate : ∀ n, table.next^[n] (chain 0) = chain n := by
      intro n
      induction n with
      | zero => rfl
      | succ n ih => rw [Function.iterate_succ_apply', ih, next_of_get? (hchain n)]
    intro n
    rw [hiterate, hchain, Option.isSome_some]
  · intro h
    refine ⟨fun n => table.next^[n] text, rfl, fun n => ?_⟩
    obtain ⟨value, hvalue⟩ := Option.isSome_iff_exists.1 (h n)
    simp only [Function.iterate_succ_apply', next_of_get? hvalue, hvalue]

/-! ## A chain longer than the table goes round -/

theorem mem_keys_of_get? (h : (table.get? text).isSome = true) : text ∈ table.newestFirst.map Entry.key := by
  rw [get?, Option.isSome_map, List.find?_isSome] at h
  obtain ⟨entry, hm, hkey⟩ := h
  exact List.mem_map.2 ⟨entry, hm, of_decide_eq_true hkey⟩

/-- More keys in a row than there are entries hold one of them twice. -/
theorem exists_repeat (h : ∀ n ≤ table.size, (table.get? (table.next^[n] text)).isSome = true) :
    ∃ i j, i < j ∧ j ≤ table.size ∧ table.next^[i] text = table.next^[j] text := by
  let keys := (table.newestFirst.map Entry.key).toFinset
  have hcard : keys.card < (Finset.range (table.size + 1)).card := by
    rw [Finset.card_range, Nat.lt_succ_iff]
    exact (List.toFinset_card_le _).trans (List.length_map _).le
  have hmaps : ∀ n ∈ Finset.range (table.size + 1), table.next^[n] text ∈ keys := fun n hn =>
    List.mem_toFinset.2 (mem_keys_of_get? (h n (Finset.mem_range_succ_iff.1 hn)))
  obtain ⟨i, hi, j, hj, hne, hsame⟩ := Finset.exists_ne_map_eq_of_card_lt_of_maps_to hcard hmaps
  rcases Nat.lt_or_gt_of_ne hne with hlt | hgt
  · exact ⟨i, j, hlt, Finset.mem_range_succ_iff.1 hj, hsame⟩
  · exact ⟨j, i, hgt, Finset.mem_range_succ_iff.1 hi, hsame.symm⟩

/-- From the repeated key on the chain goes round, so it never leaves the keys. -/
theorem endless_of_le_size (h : ∀ n ≤ table.size, (table.get? (table.next^[n] text)).isSome = true) :
    table.Endless text := by
  obtain ⟨i, j, hij, hj, hsame⟩ := exists_repeat h
  refine endless_iff.2 fun n => ?_
  induction n using Nat.strongRecOn with
  | ind n ih =>
    by_cases hn : n ≤ table.size
    · exact h n hn
    · -- a round earlier the chain was at the same text
      have hback : table.next^[n] text = table.next^[n - j + i] text := by
        rw [Function.iterate_add_apply, hsame, ← Function.iterate_add_apply, Nat.sub_add_cancel (by omega)]
      rw [hback]
      exact ih _ (by omega)

/-! ## Where a chain ends -/

theorem Ends.unique {other : Text} (h : table.Ends text final) (h' : table.Ends text other) : final = other := by
  induction h with
  | here h =>
    cases h' with
    | here _ => rfl
    | step h' _ => cases h.symm.trans h'
  | step h _ ih =>
    cases h' with
    | here h' => cases h.symm.trans h'
    | step h' hrest' =>
      obtain rfl := Option.some.inj (h.symm.trans h')
      exact ih hrest'

theorem Ends.not_endless (h : table.Ends text final) : ¬ table.Endless text := by
  simp only [endless_iff]
  intro hkeys
  induction h with
  | here h =>
    have hfirst := hkeys 0
    rw [Function.iterate_zero_apply, h] at hfirst
    cases hfirst
  | step h _ ih =>
    refine ih fun n => ?_
    have hnext := hkeys (n + 1)
    rwa [Function.iterate_succ_apply, next_of_get? h] at hnext

section Lookups
variable {lookups : Nat} (h : table.size < lookups)
include h

theorem follow?_eq_none_iff_endless : table.follow? lookups text = none ↔ table.Endless text := by
  rw [follow?_eq_none_iff]
  constructor
  · exact fun hkeys => endless_of_le_size fun n hn => hkeys n (hn.trans_lt h)
  · exact fun hkeys n _ => endless_iff.1 hkeys n

theorem follow?_eq_some_iff : table.follow? lookups text = some final ↔ table.Ends text final := by
  refine ⟨ends_of_follow?, fun hends => ?_⟩
  cases hfollow : table.follow? lookups text with
  | none => exact absurd ((follow?_eq_none_iff_endless h).1 hfollow) hends.not_endless
  | some other => rw [(ends_of_follow? hfollow).unique hends]

/-- One look-up more than there are entries is as good as any number of them. -/
theorem follow?_eq_resolve? : table.follow? lookups text = table.resolve? text := by
  refine Option.ext fun final => ?_
  rw [follow?_eq_some_iff h, resolve?, follow?_eq_some_iff (Nat.lt_succ_self _)]

end Lookups

/-- A text compiles to the tree of the text that it leads to, at whatever depth. -/
theorem compileAt_eq_elim (clock : Instant) (ceiling depth : Nat) :
    table.compileAt clock ceiling depth text =
      (table.resolve? text).elim .null (table.compileAt clock ceiling depth) := by
  cases hresolve : table.resolve? text with
  | none =>
    rw [compileAt]
    cases ceiling + 1 - depth with
    | zero => rfl
    | succ levels => rw [compileWithin, hresolve, Option.elim_none]
  | some final =>
    have hends := (follow?_eq_some_iff (Nat.lt_succ_self _)).1 hresolve
    have hfinal : table.resolve? final = some final :=
      (follow?_eq_some_iff (Nat.lt_succ_self _)).2 (.here hends.get?_eq_none)
    rw [Option.elim_some, compileAt, compileAt]
    cases ceiling + 1 - depth with
    | zero => rfl
    | succ levels => rw [compileWithin, compileWithin, hresolve, hfinal]

/-- A text resolves to the end of its chain, and to nothing if there is none. No number of
look-ups beyond the bound finds more, and a chain costs no depth, however long it is. -/
theorem resolve?_spec (table : Table) (text : Text) :
    (∀ final, table.resolve? text = some final ↔ table.Ends text final) ∧
      (table.resolve? text = none ↔ table.Endless text) ∧
      (∀ more, table.follow? (table.size + 1 + more) text = table.resolve? text) ∧
      ∀ clock ceiling depth, table.compileAt clock ceiling depth text =
        (table.resolve? text).elim .null (table.compileAt clock ceiling depth) := by
  have hbound : table.size < table.size + 1 := Nat.lt_succ_self _
  exact ⟨fun final => follow?_eq_some_iff hbound, follow?_eq_none_iff_endless hbound,
    fun more => follow?_eq_resolve? (hbound.trans_le (Nat.le_add_right _ more)), compileAt_eq_elim⟩

-- every key once, with an entry for each, and a chain into a round that it did not begin in
example : (⟨[⟨['c'], ['d']⟩, ⟨['b'], ['c']⟩, ⟨['a'], ['b']⟩]⟩ : Table).resolve? ['a'] = some ['d'] := by decide
example : (⟨[⟨['c'], ['b']⟩, ⟨['b'], ['c']⟩, ⟨['a'], ['b']⟩]⟩ : Table).resolve? ['a'] = none := by decide

end Table

end FilterQuery
