import FilterQuery.Text.Basic
/-!
# Key suffixes

A token key is `x`, a number, an underscore and a suffix. The suffix is the same
for all keys of one tokenization and should not occur in the input, so that a key
is never taken for what the user wrote. `Suffix.fresh` finds one that does not, which
is `Suffix.admissible_fresh`.
-/

namespace FilterQuery

namespace Suffix

/-- The characters of hexadecimal digits in lower case. -/
def isHexDigit (c : Char) : Bool := c.isDigit || ('a' ≤ c && c ≤ 'f')

/-- A suffix that may be drawn for an input: hexadecimal digits in lower case that
do not occur in it. -/
def Admissible (input suffix : Text) : Prop :=
  suffix ≠ [] ∧ suffix.all isHexDigit = true ∧ Text.occurs suffix input = false

instance (input suffix : Text) : Decidable (Admissible input suffix) := by
  unfold Admissible; infer_instance

/-- The candidates below `2 ^ 62` all have sixteen digits. -/
def candidate (n : Nat) : Text := Nat.toDigits 16 (0x9E3779B97F4A7C15 + n)

/-- A suffix that does not occur in the input. An input has no more parts of sixteen
characters than characters, so that one of the candidates is free; should the candidates
get longer than that, a suffix longer than the input is free. -/
def fresh (input : Text) : Text :=
  (((List.range (input.length + 1)).map candidate).find? (! Text.occurs · input)).getD
    (List.replicate (input.length + 1) 'a')

theorem isHexDigit_of_mem_toDigits {n : Nat} {c : Char} (h : c ∈ Nat.toDigits 16 n) : isHexDigit c = true := by
  have hdigit : ∀ d < 16, isHexDigit (Nat.digitChar d) = true := by decide
  induction n using Nat.strongRecOn with
  | ind n ih =>
    by_cases hn : n < 16
    · rw [Nat.toDigits_of_lt_base hn, List.mem_singleton] at h
      rw [h]
      exact hdigit n hn
    · have hle : 16 ≤ n := Nat.le_of_not_lt hn
      rw [Nat.toDigits_of_base_le (by decide) hle, List.mem_append, List.mem_singleton] at h
      rcases h with h | rfl
      · exact ih (n / 16) (Nat.div_lt_self (Nat.lt_of_lt_of_le (by decide) hle) (by decide)) h
      · exact hdigit (n % 16) (Nat.mod_lt n (by decide))

theorem admissible_replicate (input : Text) : Admissible input (List.replicate (input.length + 1) 'a') := by
  refine ⟨List.cons_ne_nil _ _, List.all_eq_true.2 fun c hc => ?_, ?_⟩
  · rw [List.eq_of_mem_replicate hc]
    rfl
  · rw [Text.occurs, Option.isSome_eq_false_iff, Option.isNone_iff_eq_none, Option.eq_none_iff_forall_ne_some]
    rintro ⟨before, after⟩ hcut
    have hlength := congrArg List.length (Text.append_of_cut? hcut)
    simp only [List.length_append, List.length_replicate] at hlength
    omega

/-- What is found for an input may be drawn for it. -/
theorem admissible_fresh (input : Text) : Admissible input (fresh input) := by
  unfold fresh
  cases h : ((List.range (input.length + 1)).map candidate).find? (! Text.occurs · input) with
  | none => exact admissible_replicate input
  | some suffix =>
    have hfree := List.find?_some h
    obtain ⟨n, -, rfl⟩ := List.mem_map.1 (List.mem_of_find?_eq_some h)
    refine ⟨Nat.toDigits_ne_nil, List.all_eq_true.2 fun c hc => isHexDigit_of_mem_toDigits hc, ?_⟩
    simpa using hfree

end Suffix

end FilterQuery
