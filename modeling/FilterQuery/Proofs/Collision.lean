import FilterQuery.Proofs.Forest
import FilterQuery.Proofs.Passage.Compile
import FilterQuery.Proofs.Passage.Form
import FilterQuery.Proofs.Passage.Seam
import Mathlib.Logic.Relation
/-!
# Keys and user text

A suffix is drawn so that it does not occur in the input, but the texts that the compiler
looks up have lost their blanks: from `x2_a b` the text `x2_ab` is left, which is a key
under the suffix `ab`.

`Table.LooksUp` are the texts that the compiler looks up; `Table.compileWithin_congr` says
that there are no others. `Passage.LooksUp` are the operands that they are spelled from.
`Tokenized.OwnsKeys` says that every key in the texts was put there by the tokenizer, that
of all operands only keys are found in the table, and that following keys never comes
back. `Tokenized.ownsKeys_iff` is the exact condition: no minted key is written in the
input, as far as the tokenizer drops blanks.
-/

namespace FilterQuery

namespace Table

/-- The texts that the compiler looks up when it compiles a text, at any depth. -/
inductive LooksUp (table : Table) (clock : Instant) (start : Text) : Text → Prop
  | start : LooksUp table clock start start
  | value {text value : Text} (h : LooksUp table clock start text) (hget : table.get? text = some value) :
      LooksUp table clock start value
  | part {text part : Text} (h : LooksUp table clock start text) (hget : table.get? text = none)
      (hm : part ∈ (Shape.ofText clock text).parts) : LooksUp table clock start part

/-- The text stands in what is stored for the key. -/
def Leads (table : Table) (key text : Text) : Prop := ∃ value, table.get? key = some value ∧ text <:+: value

section Congr
variable {table other : Table} {clock : Instant} {start : Text}
  (h : ∀ text, table.LooksUp clock start text → table.get? text = other.get? text)
include h

theorem follow?_congr (lookups : Nat) {text : Text} (ht : table.LooksUp clock start text) :
    table.follow? lookups text = other.follow? lookups text ∧ ∀ final, table.follow? lookups text = some final →
      table.LooksUp clock start final ∧ table.get? final = none := by
  induction lookups generalizing text with
  | zero => exact ⟨rfl, fun final hfinal => by cases hfinal⟩
  | succ lookups ih =>
    unfold follow?
    rw [← h text ht]
    cases hget : table.get? text with
    | some value => exact ih (ht.value hget)
    | none =>
      refine ⟨rfl, fun final hfinal => ?_⟩
      obtain rfl := Option.some.inj hfinal
      exact ⟨ht, hget⟩

/-- The compiler reads the table at the texts that it looks up only. -/
theorem compileWithin_congr (hsize : table.size = other.size) (levels : Nat) {text : Text}
    (ht : table.LooksUp clock start text) :
    table.compileWithin clock levels text = other.compileWithin clock levels text := by
  induction levels generalizing text with
  | zero => rfl
  | succ levels ih =>
    obtain ⟨hfollow, hfinal⟩ := follow?_congr h (table.size + 1) ht
    have hresolve : other.resolve? text = table.resolve? text := by rw [resolve?, resolve?, hfollow, hsize]
    unfold compileWithin
    rw [hresolve]
    cases hr : table.resolve? text with
    | none => rfl
    | some final =>
      obtain ⟨hlooks, hget⟩ := hfinal final hr
      exact Shape.node_congr fun part hm => ih (hlooks.part hget hm)

end Congr

end Table

namespace Passage

/-! ## Operands -/

/-- The operands that are looked up when a passage is compiled, at any depth. -/
inductive LooksUp (clock : Instant) (start : Passage) : Passage → Prop
  | start : LooksUp clock start start
  | value {number : Nat} {tier : Tier} {value : Passage} (h : LooksUp clock start [.key number tier value]) :
      LooksUp clock start value
  | part {p part : Passage} (h : LooksUp clock start p) (hp : ¬ IsKey p) (hm : part ∈ (shape clock p).parts) :
      LooksUp clock start part

section LooksUp
variable {clock : Instant} {input suffix : Text} {q : Passage}

/-- All keys of an operand are noted, and the operand is written where the input is. -/
theorem LooksUp.known (h : LooksUp clock (tokenize input).1 q) :
    Within (tokenize input).2.newestFirst q ∧ expand q <:+: expand (tokenize input).1 := by
  obtain ⟨hr, hw⟩ := tokenize_sound input
  induction h with
  | start => exact ⟨hw, List.infix_rfl⟩
  | value h ih =>
    refine ⟨hr.layered.within (ih.1 ⟨_, _, _⟩ List.mem_cons_self), ?_⟩
    exact (infix_expand_value List.mem_cons_self).trans ih.2
  | part h hp hm ih =>
    have hwithin := infix_of_shape (Shape.parts_subset_contents _ hm)
    exact ⟨ih.1.mono (List.Subset.refl _) hwithin.subset, (infix_expand hwithin).trans ih.2⟩

theorem get?_key_of_within {number : Nat} {tier : Tier} {value : Passage}
    (hw : Within (tokenize input).2.newestFirst [.key number tier value]) :
    ((tokenize input).2.table suffix).get? (spell suffix [.key number tier value]) = some (spell suffix value) := by
  have hm := hw ⟨number, tier, value⟩ List.mem_cons_self
  simpa using Register.get?_key (tokenize_sound input).1 hm

variable (hs : Suffix.IsHex suffix)
include hs

/-- Where no key is written by hand, of all operands only keys are in the table. -/
theorem LooksUp.contains_iff (hc : Clear suffix (tokenize input).2.newestFirst (tokenize input).1)
    (h : LooksUp clock (tokenize input).1 q) :
    ((tokenize input).2.table suffix).contains (spell suffix q) = true ↔ IsKey q := by
  obtain ⟨hw, hwithin⟩ := h.known
  constructor
  · intro hcontains
    by_contra hq
    have hnone := Register.get?_spell_eq_none hs (hc.mono hwithin) fun number tier value he => hq ⟨_, _, _, he⟩
    simp [Table.contains, hnone] at hcontains
  · rintro ⟨number, tier, value, rfl⟩
    rw [Table.contains, get?_key_of_within hw]
    rfl

/-- Where no key is written by hand, the compiler looks up the operands. -/
theorem exists_looksUp (hc : Clear suffix (tokenize input).2.newestFirst (tokenize input).1) {text : Text}
    (h : ((tokenize input).2.table suffix).LooksUp clock (spell suffix (tokenize input).1) text) :
    ∃ q, LooksUp clock (tokenize input).1 q ∧ text = spell suffix q := by
  induction h with
  | start => exact ⟨_, .start, rfl⟩
  | value h hget ih =>
    obtain ⟨q, hq, rfl⟩ := ih
    obtain ⟨number, tier, value, rfl⟩ := (hq.contains_iff hs hc).1 (by simp [Table.contains, hget])
    rw [get?_key_of_within hq.known.1] at hget
    exact ⟨value, hq.value, (Option.some.inj hget).symm⟩
  | part h hget hm ih =>
    obtain ⟨q, hq, rfl⟩ := ih
    have hkey : ¬ IsKey q := by
      intro hkey
      have hcontains := (hq.contains_iff hs hc).2 hkey
      simp [Table.contains, hget] at hcontains
    rw [ofText_spell hs, Shape.parts_map] at hm
    obtain ⟨part, hpart, rfl⟩ := List.mem_map.1 hm
    exact ⟨part, hq.part hkey hpart, rfl⟩

end LooksUp

/-! ## Following keys -/

section Leads
variable {suffix input : Text} (hs : Suffix.IsHex suffix)
  (hc : Clear suffix (tokenize input).2.newestFirst (tokenize input).1)
include hs hc

/-- Where no key is written by hand, a key that stands in what is stored for another one is
the older of the two. -/
theorem mem_older_of_leads {newer older : List Lifted} {lifted other : Lifted}
    (hsplit : (tokenize input).2.newestFirst = newer ++ lifted :: older)
    (hother : other ∈ (tokenize input).2.newestFirst)
    (h : ((tokenize input).2.table suffix).Leads (Minter.key suffix lifted.number) (Minter.key suffix other.number)) :
    other ∈ older := by
  obtain ⟨value, hget, hvalue⟩ := h
  have hr := (tokenize_sound input).1
  have hlifted : lifted ∈ (tokenize input).2.newestFirst := by simp [hsplit]
  rw [Register.get?_key hr hlifted] at hget
  obtain rfl := Option.some.inj hget
  obtain ⟨found, hfound, hnumber⟩ := exists_older_of_infix hs (hc other hother) hsplit hvalue
  have hmem : found ∈ (tokenize input).2.newestFirst := by simp [hsplit, hfound]
  rwa [List.inj_on_of_nodup_map hr.nodup hmem hother hnumber] at hfound

/-- So is a key that another one leads to by way of further keys. -/
theorem mem_older_of_transGen {newer older : List Lifted} {lifted other : Lifted}
    (hsplit : (tokenize input).2.newestFirst = newer ++ lifted :: older)
    (hother : other ∈ (tokenize input).2.newestFirst)
    (h : Relation.TransGen ((tokenize input).2.table suffix).Leads (Minter.key suffix lifted.number)
      (Minter.key suffix other.number)) : other ∈ older := by
  generalize hkey : Minter.key suffix other.number = key at h
  induction h generalizing other with
  | single h => exact mem_older_of_leads hs hc hsplit hother (hkey ▸ h)
  | tail _ h ih =>
    -- what leads on is a key itself, and so older than the first one
    obtain ⟨value, hget, -⟩ := id h
    obtain ⟨between, hbetween, rfl⟩ := Register.eq_key_of_get? hget
    obtain ⟨newer', older', rfl⟩ := List.append_of_mem (ih hbetween rfl)
    have hsplit' : (tokenize input).2.newestFirst = (newer ++ lifted :: newer') ++ between :: older' := by
      simp [hsplit]
    have holder := mem_older_of_leads hs hc hsplit' hother (hkey ▸ h)
    exact List.mem_append_right _ (List.mem_cons_of_mem _ holder)

theorem not_leads_self {lifted : Lifted} (hm : lifted ∈ (tokenize input).2.newestFirst) :
    ¬ Relation.TransGen ((tokenize input).2.table suffix).Leads (Minter.key suffix lifted.number)
      (Minter.key suffix lifted.number) := by
  intro h
  obtain ⟨newer, older, hsplit⟩ := List.append_of_mem hm
  exact not_mem_older (tokenize_sound input).1 hsplit (mem_older_of_transGen hs hc hsplit hm h)

end Leads

end Passage

/-! ## The exact condition -/

namespace Tokenized

open Passage

/-- Keys are the tokenizer's own, and user text is never taken for one. -/
structure OwnsKeys (suffix input : Text) : Prop where
  /-- Where a minted key stands, the tokenizer put it there. -/
  placed : ∀ lifted ∈ (tokenize input).2.newestFirst, ∀ q ∈ Passage.texts input,
    occurrences (Minter.key suffix lifted.number) (spell suffix q) = keyCount lifted.number q
  /-- The compiler looks up operands of the filter. -/
  looksUp : ∀ clock text, (ofText suffix input).table.LooksUp clock (ofText suffix input).skeleton text →
    ∃ q, Passage.LooksUp clock (tokenize input).1 q ∧ text = spell suffix q
  /-- An operand is found in the table only if it is a key. -/
  contains_iff : ∀ clock q, Passage.LooksUp clock (tokenize input).1 q →
    ((ofText suffix input).table.contains (spell suffix q) = true ↔ IsKey q)
  /-- No key leads back to itself. -/
  acyclic : ∀ entry ∈ (ofText suffix input).table.toList,
    ¬ Relation.TransGen (ofText suffix input).table.Leads entry.key entry.key
  /-- Following any text through the table comes to an end. -/
  resolve? : ∀ text, ((ofText suffix input).table.resolve? text).isSome = true

theorem forall_entry_iff {suffix : Text} (hs : Suffix.IsHex suffix) {input : Text} {P : Text → Prop} :
    (∀ entry ∈ (ofText suffix input).table.toList, P entry.key) ↔
      ∀ lifted ∈ (tokenize input).2.newestFirst, P (Minter.key suffix lifted.number) := by
  rw [toList_table_ofText hs]
  simp only [List.mem_reverse, List.forall_mem_map]
  rfl

theorem ownsKeys_of_clear {suffix : Text} (hs : Suffix.IsHex suffix) {input : Text}
    (hc : Clear suffix (tokenize input).2.newestFirst (tokenize input).1) : OwnsKeys suffix input where
  placed := fun lifted hm q hq => occurrences_eq_keyCount hs (hc lifted hm) hq
  looksUp := by
    intro clock text h
    rw [table_ofText hs, ofText_eq hs] at h
    exact exists_looksUp hs hc h
  contains_iff := by
    intro clock q h
    rw [table_ofText hs]
    exact h.contains_iff hs hc
  acyclic := by
    rw [forall_entry_iff hs (P := fun key => ¬ Relation.TransGen (ofText suffix input).table.Leads key key),
      table_ofText hs]
    exact fun lifted hm => not_leads_self hs hc hm
  resolve? := by
    rw [table_ofText hs]
    exact isSome_resolve? hs hc

/-- A suffix that does not occur in the input, blanks left out, makes keys that cannot
collide with user text. -/
theorem ownsKeys_of_admissible {input suffix : Text} (h : Suffix.Admissible input.dropBlanks suffix) :
    OwnsKeys suffix input :=
  ownsKeys_of_clear h.2.1 ((known_tokenize h.2.1 h.not_infix_key).fresh.clear _)

/-- Keys that stand where they were put only stand in one place of all texts. -/
theorem OwnsKeys.sum_occurrences_eq_one {suffix : Text} (hs : Suffix.IsHex suffix) {input : Text}
    (h : OwnsKeys suffix input) : ∀ entry ∈ (ofText suffix input).table.toList,
      ((ofText suffix input).texts.map (occurrences entry.key)).sum = 1 := by
  rw [forall_entry_iff hs (P := fun key => ((ofText suffix input).texts.map (occurrences key)).sum = 1)]
  exact fun lifted hm => Passage.sum_occurrences_eq_one hs hm (h.placed lifted hm)

/-- Keys stand where they were put only if none is written by hand. -/
theorem OwnsKeys.clear {suffix : Text} (hs : Suffix.IsHex suffix) {input : Text} (h : OwnsKeys suffix input) :
    Clear suffix (tokenize input).2.newestFirst (tokenize input).1 := by
  intro lifted hm hwithin
  have hnone : ∀ q ∈ Passage.texts input, ¬ (Minter.key suffix lifted.number).map some <:+: q.map Piece.view := by
    intro q hq
    have hplaced := h.placed lifted hm q hq
    rw [occurrences_spell hs] at hplaced
    rw [← occurrences_eq_zero_iff (by simp [Minter.key])]
    omega
  rcases infix_view_tokenize hs hwithin with hskeleton | ⟨holder, hholder, hvalue⟩
  · exact hnone _ List.mem_cons_self hskeleton
  · refine hnone _ (List.mem_cons_of_mem _ (List.mem_map.2 ⟨holder, ?_, rfl⟩)) hvalue
    exact List.mem_reverse.2 hholder

/-- Minted keys cannot collide with user text iff none is written in the tokenized input. -/
theorem ownsKeys_iff {suffix : Text} (hs : Suffix.IsHex suffix) (input : Text) :
    OwnsKeys suffix input ↔
      ∀ entry ∈ (ofText suffix input).table.toList, ¬ entry.key <:+: expand (tokenize input).1 := by
  rw [forall_entry_iff hs (P := fun key => ¬ key <:+: expand (tokenize input).1)]
  exact ⟨OwnsKeys.clear hs, ownsKeys_of_clear hs⟩

/-- The suffix `ab` does not occur in the input, but the blank that is dropped makes a key
of `x2_a b`, so that the clause `c=1` is read twice. -/
theorem not_ownsKeys_dropped_blank :
    let input := "(x2_a b)|c=1".toList
    let clock : Instant := ⟨0, 0, by decide, by decide, by decide⟩
    let clause := Node.ofField "c" (.number (.integer 1))
    Suffix.Admissible input "ab".toList ∧ Suffix.Admissible input "cd".toList ∧
      (ofText "ab".toList input).tree clock = .ofOperator .or (.list [clause, clause]) ∧
      (ofText "cd".toList input).tree clock = .ofOperator .or (.list [clause]) ∧
      ¬ OwnsKeys "ab".toList input ∧
      ∃ entry ∈ (ofText "ab".toList input).table.toList, entry.key <:+: expand (tokenize input).1 := by
  have hs : Suffix.IsHex "ab".toList := rfl
  have hno : ¬ OwnsKeys "ab".toList "(x2_a b)|c=1".toList := by
    -- the key stands for the clause in the skeleton, and in what the group stands for
    intro h
    have hm : (⟨"x2_ab".toList, "c=1".toList⟩ : Entry) ∈ (ofText "ab".toList "(x2_a b)|c=1".toList).table.toList := by
      decide
    have htwice : ((ofText "ab".toList "(x2_a b)|c=1".toList).texts.map (occurrences "x2_ab".toList)).sum = 2 := by
      decide
    rw [h.sum_occurrences_eq_one hs _ hm] at htwice
    cases htwice
  refine ⟨by decide, by decide, rfl, rfl, hno, ?_⟩
  by_contra hnone
  exact hno ((ownsKeys_iff hs _).2 fun entry hm h => hnone ⟨entry, hm, h⟩)

/-- Where a key is stored for itself, following it never ends. -/
example : (ofText "ab".toList "(x1_a b)".toList).table.resolve? "x1_ab".toList = none := by decide

end Tokenized

end FilterQuery
