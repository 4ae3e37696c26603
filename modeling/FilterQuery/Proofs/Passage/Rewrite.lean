import FilterQuery.Proofs.Passage.Basic
/-!
# Rewriting passages

`Passage.rewrite` does to a passage what the tokenizer does to its spelling, without
fuel: every lift takes a character away, so that rewriting ends. `rewrite_spell` is
the simulation: spelled with any suffix of hexadecimal digits, the rewritten passage
and the lifts are what `Minter.rewrite` computes for the spelled passage, once there
is fuel enough, and `Tokenized.ofText_eq` says that the tokenizer has enough.
-/

namespace FilterQuery

/-- A part that was lifted out of a passage, under the number of its key. -/
structure Lifted where
  number : Nat
  tier : Tier
  value : Passage

/-- The key of a lift. -/
def Lifted.piece (lifted : Lifted) : Piece := .key lifted.number lifted.tier lifted.value

/-- The list with the key of a lift in place of the part that was cut out. -/
def Cut.replace (cut : Cut Piece) (lifted : Lifted) : Passage := cut.before ++ lifted.piece :: cut.after

theorem map_view_replace (cut : Cut Piece) (lifted : Lifted) :
    (cut.replace lifted).map Piece.view = cut.before.map Piece.view ++ none :: cut.after.map Piece.view := by
  simp [Cut.replace, Lifted.piece, Piece.view]

/-- The numbers that are taken, and the lifts so far. -/
structure Register where
  minted : Nat
  newestFirst : List Lifted

namespace Register

/-- A register without lifts. -/
def new : Register := ⟨0, []⟩

/-- The number of the next key. -/
def next (register : Register) : Nat := register.minted + 1

/-- The register after taking the next number. -/
def mint (register : Register) : Register := { register with minted := register.next }

/-- The register after storing a lift. -/
def store (register : Register) (lifted : Lifted) : Register :=
  { register with newestFirst := lifted :: register.newestFirst }

end Register

/-- What a tier other than that of groups stores of a part. -/
def Tier.keep : Tier → Passage → Passage
  | literal _, part => part
  | _, part => part.dropBlanks

namespace Passage

/-- The pieces between a first and a last one. -/
def interior (p : Passage) : Passage := p.tail.dropLast

/-- The number of characters, keys not counted. -/
def chars (p : Passage) : Nat := p.countP (·.view.isSome)

theorem chars_replace (cut : Cut Piece) (lifted : Lifted) :
    chars (cut.replace lifted) = chars cut.before + chars cut.after := by
  simp [chars, Cut.replace, Lifted.piece, Piece.view, List.countP_append]

theorem chars_replace_lt {tier : Tier} {p : Passage} {cut : Cut Piece}
    (h : tier.search? Piece.view p = some cut) (lifted : Lifted) : chars (cut.replace lifted) < chars p := by
  obtain ⟨hp, hf⟩ := Tier.append_of_search? h
  have hpos : 0 < cut.part.countP (·.view.isSome) := List.countP_pos_iff.2 (Tier.exists_view_of_front? hf)
  rw [chars_replace, hp]
  simp only [chars, List.countP_append]
  omega

theorem chars_interior_lt {p : Passage} {cut : Cut Piece} (h : Tier.group.search? Piece.view p = some cut) :
    chars (interior cut.part) < chars p := by
  obtain ⟨hp, hf⟩ := Tier.append_of_search? h
  obtain ⟨a, inner, b, he, ha, hb, -, -⟩ := Tier.eq_of_front?_group hf
  rw [hp, he]
  simp only [interior, List.cons_append, List.tail_cons, List.dropLast_concat, chars, List.countP_append,
    List.countP_cons, ha, Option.isSome_some, if_true]
  omega

/-- Groups are the one tier that is told apart; equality of tiers in general is left
undecided. -/
instance (tier : Tier) : Decidable (tier = .group) :=
  match tier with
  | .literal _ => isFalse nofun
  | .group => isTrue rfl
  | .comparison _ => isFalse nofun
  | .conjunction => isFalse nofun

/-- Rewrites a passage by the given tiers. -/
def rewrite (tiers : List Tier) (register : Register) (p : Passage) : Passage × Register :=
  match tiers with
  | [] => (p, register)
  | tier :: rest =>
    match _h : tier.search? Piece.view p with
    | none => rewrite rest register p
    | some cut =>
      if _ht : tier = .group then
        let content := rewrite Tier.all register.mint (interior cut.part)
        let lifted := ⟨register.next, tier, content.1.dropBlanks⟩
        rewrite (tier :: rest) (content.2.store lifted) (cut.replace lifted)
      else
        let lifted := ⟨register.next, tier, tier.keep cut.part⟩
        rewrite (tier :: rest) (register.mint.store lifted) (cut.replace lifted)
termination_by (chars p, tiers.length)
decreasing_by
  · exact Prod.Lex.right _ (Nat.lt_succ_self _)
  · exact Prod.Lex.left _ _ (chars_interior_lt (_ht ▸ _h))
  · exact Prod.Lex.left _ _ (chars_replace_lt _h _)
  · exact Prod.Lex.left _ _ (chars_replace_lt _h _)

/-! ## One step at a time -/

section Steps
variable {tier : Tier} {tiers : List Tier} {register : Register} {p : Passage} {cut : Cut Piece}

/-- The lift of a part by a tier other than that of groups. -/
def lift (tier : Tier) (register : Register) (part : Passage) : Lifted :=
  ⟨register.next, tier, tier.keep part⟩

/-- The rewritten content of a group. -/
def content (register : Register) (part : Passage) : Passage × Register :=
  rewrite Tier.all register.mint (interior part)

/-- The lift of a group. -/
def liftGroup (register : Register) (part : Passage) : Lifted :=
  ⟨register.next, .group, (content register part).1.dropBlanks⟩

theorem rewrite_nil : rewrite [] register p = (p, register) := by
  rw [rewrite]

theorem rewrite_pass (h : tier.search? Piece.view p = none) :
    rewrite (tier :: tiers) register p = rewrite tiers register p := by
  rw [rewrite]
  split <;> simp_all

theorem rewrite_lift (h : tier.search? Piece.view p = some cut) (ht : tier ≠ .group) :
    rewrite (tier :: tiers) register p =
      rewrite (tier :: tiers) (register.mint.store (lift tier register cut.part))
        (cut.replace (lift tier register cut.part)) := by
  rw [rewrite]
  split <;> simp_all [lift]

theorem rewrite_group (h : Tier.group.search? Piece.view p = some cut) :
    rewrite (.group :: tiers) register p =
      rewrite (.group :: tiers) ((content register cut.part).2.store (liftGroup register cut.part))
        (cut.replace (liftGroup register cut.part)) := by
  rw [rewrite]
  split <;> simp_all [liftGroup, content]

/-- Induction along a run of the tiers, with the runs on the contents of groups. -/
theorem rewrite_induction {motive : List Tier → Register → Passage → Prop}
    (done : ∀ register p, motive [] register p)
    (pass : ∀ tier tiers register p, tier.search? Piece.view p = none → motive tiers register p →
      motive (tier :: tiers) register p)
    (lift : ∀ tier tiers register p cut, tier.search? Piece.view p = some cut → tier ≠ .group →
      motive (tier :: tiers) (register.mint.store (lift tier register cut.part))
        (cut.replace (lift tier register cut.part)) → motive (tier :: tiers) register p)
    (group : ∀ tiers register p cut, Tier.group.search? Piece.view p = some cut →
      motive Tier.all register.mint (interior cut.part) →
      motive (.group :: tiers) ((content register cut.part).2.store (liftGroup register cut.part))
        (cut.replace (liftGroup register cut.part)) → motive (.group :: tiers) register p)
    (tiers : List Tier) (register : Register) (p : Passage) : motive tiers register p :=
  rewrite.induct motive done (fun register p tier tiers h ih => pass tier tiers register p h ih)
    (fun register p tiers cut h ihc ih => group tiers register p cut h ihc ih)
    (fun register p tier tiers cut h ht ih => lift tier tiers register p cut h ht ih) tiers register p

end Steps

end Passage

/-! ## The steps of the tokenizer -/

/-- What a tier other than that of groups stores of a part of a text. -/
def Tier.stored : Tier → Text → Text
  | literal _, part => part
  | _, part => part.dropBlanks

namespace Minter

variable {tier : Tier} {tiers : List Tier} {minter : Minter} {text part : Text}

theorem rewrite_pass (h : tier.find? text = none) (fuel : Nat) :
    rewrite (fuel + 1) (tier :: tiers) minter text = rewrite fuel tiers minter text := by
  rw [rewrite, h]

theorem rewrite_lift (h : tier.find? text = some part) (hg : tier ≠ .group) (fuel : Nat) :
    rewrite (fuel + 1) (tier :: tiers) minter text =
      rewrite fuel (tier :: tiers) (minter.mint.store tier minter.next (tier.stored part))
        (text.replaceFirst part minter.next) := by
  rw [rewrite, h]
  cases tier with
  | group => exact absurd rfl hg
  | _ => rfl

theorem rewrite_group (h : Tier.group.find? text = some part) (fuel : Nat) :
    rewrite (fuel + 1) (.group :: tiers) minter text =
      rewrite fuel (.group :: tiers)
        ((rewrite fuel Tier.all minter.mint part.interior).2.store .group minter.next
          (rewrite fuel Tier.all minter.mint part.interior).1.dropBlanks)
        (text.replaceFirst part minter.next) := by
  rw [rewrite, h]

end Minter

/-! ## The simulation -/

/-- A lift as it is noted down when keys have the suffix. -/
def Lifted.spell (suffix : Text) (lifted : Lifted) : Lift :=
  ⟨lifted.tier, Minter.key suffix lifted.number, Passage.spell suffix lifted.value⟩

/-- The state of the minter that a register stands for when keys have the suffix. -/
def Register.spell (suffix : Text) (register : Register) : Minter :=
  ⟨suffix, register.minted, register.newestFirst.map (Lifted.spell suffix)⟩

namespace Passage

theorem interior_spell (suffix : Text) {l part after : Passage}
    (h : Tier.group.front? Piece.view l = some (part, after)) :
    (spell suffix part).interior = spell suffix (interior part) := by
  obtain ⟨a, inner, b, rfl, ha, hb, -, -⟩ := Tier.eq_of_front?_group h
  cases a with
  | key => cases ha
  | char c =>
    cases b with
    | key => cases hb
    | char d => simp [Text.interior, interior]

section Hex
variable {suffix : Text} (hs : Suffix.IsHex suffix)
include hs

/-- A tier finds in a spelled passage what it finds in the passage. -/
theorem find?_spell {tier : Tier} (ht : tier ∈ Tier.all) (p : Passage) :
    tier.find? (spell suffix p) = (tier.search? Piece.view p).map fun cut => spell suffix cut.part := by
  rw [Tier.find?_eq_search?, search?_spell hs ht]
  cases tier.search? Piece.view p <;> rfl

theorem stored_spell (tier : Tier) (part : Passage) :
    tier.stored (spell suffix part) = spell suffix (tier.keep part) := by
  cases tier with
  | literal quote => rfl
  | _ => exact dropBlanks_spell hs part

/-- The first occurrence of the text that a tier finds is the part that it finds. -/
theorem replaceFirst_spell {tier : Tier} (ht : tier ∈ Tier.all) {p : Passage} {cut : Cut Piece}
    (h : tier.search? Piece.view p = some cut) (lifted : Lifted) :
    (spell suffix p).replaceFirst (spell suffix cut.part) (Minter.key suffix lifted.number) =
      spell suffix (cut.replace lifted) := by
  have hp := search?_spell hs ht p
  rw [h] at hp
  rw [show spell suffix cut.part = (cut.map (spell suffix)).part from rfl,
    Tier.replaceFirst_of_search? hp, Cut.replace, spell_append, Lifted.piece, spell_key_cons,
    ← List.append_assoc]
  rfl

/-- Rewriting a spelled passage spells the rewritten passage and the lifts. Each tier
takes a step, and so does each lift, which takes a character away. -/
theorem rewrite_spell {tiers : List Tier} (ht : tiers ⊆ Tier.all) (register : Register) (p : Passage)
    {fuel : Nat} (hf : 13 * chars p + tiers.length < fuel) :
    Minter.rewrite fuel tiers (register.spell suffix) (spell suffix p) =
      Prod.map (spell suffix) (Register.spell suffix) (rewrite tiers register p) := by
  -- along the steps of the passage, with what is left of the fuel
  induction tiers, register, p using rewrite_induction generalizing fuel with
  | done register p =>
    obtain ⟨fuel, rfl⟩ := Nat.exists_eq_add_one.2 (Nat.zero_lt_of_lt hf)
    rw [rewrite_nil]
    rfl
  | pass tier tiers register p h ih =>
    obtain ⟨fuel, rfl⟩ := Nat.exists_eq_add_one.2 (Nat.zero_lt_of_lt hf)
    have hfind : tier.find? (spell suffix p) = none := by
      rw [find?_spell hs (ht List.mem_cons_self), h, Option.map_none]
    rw [rewrite_pass h, Minter.rewrite_pass hfind]
    rw [List.length_cons] at hf
    exact ih (List.subset_of_cons_subset ht) (by omega)
  | lift tier tiers register p cut h hg ih =>
    obtain ⟨fuel, rfl⟩ := Nat.exists_eq_add_one.2 (Nat.zero_lt_of_lt hf)
    have hlt := chars_replace_lt h (lift tier register cut.part)
    have hfind : tier.find? (spell suffix p) = some (spell suffix cut.part) := by
      rw [find?_spell hs (ht List.mem_cons_self), h, Option.map_some]
    rw [rewrite_lift h hg, Minter.rewrite_lift hfind hg, stored_spell hs, ← @ih ht fuel (by omega),
      ← replaceFirst_spell hs (ht List.mem_cons_self) h]
    rfl
  | group tiers register p cut h ihc ih =>
    obtain ⟨fuel, rfl⟩ := Nat.exists_eq_add_one.2 (Nat.zero_lt_of_lt hf)
    have hlt := chars_replace_lt h (liftGroup register cut.part)
    have hlt' := chars_interior_lt h
    have hfind : Tier.group.find? (spell suffix p) = some (spell suffix cut.part) := by
      rw [find?_spell hs (ht List.mem_cons_self), h, Option.map_some]
    have hcontent : Minter.rewrite fuel Tier.all (register.spell suffix).mint (spell suffix cut.part).interior =
        Prod.map (spell suffix) (Register.spell suffix) (content register cut.part) := by
      rw [interior_spell suffix (Tier.append_of_search? h).2]
      exact ihc (List.Subset.refl _) (by simp only [Tier.all, List.length_cons, List.length_nil] at hf ⊢; omega)
    rw [rewrite_group h, Minter.rewrite_group hfind, hcontent, ← @ih ht fuel (by omega),
      ← replaceFirst_spell hs (ht List.mem_cons_self) h, Prod.map_fst, dropBlanks_spell hs]
    rfl

end Hex

/-- A text taken apart by all tiers. -/
def tokenize (input : Text) : Passage × Register := rewrite Tier.all .new (ofText input)

end Passage

namespace Tokenized

/-- There are more steps than a lift for every character of an input takes, with a turn of all
tiers after each. -/
theorem lt_steps {lifts : Nat} {input : Text} (h : lifts ≤ input.length) (suffix : Text) :
    13 * lifts + Tier.all.length < steps suffix input := by
  have hlength : Tier.all.length = 12 := rfl
  rw [hlength, steps]
  calc 13 * lifts + 12 < (input.length + suffix.length + 16) * 16 := by omega
    _ ≤ (input.length + suffix.length + 16) * (input.length + suffix.length + 16) :=
      Nat.mul_le_mul_left _ (by omega)

/-- The tokenizer spells the passage and the lifts that its input is taken apart to. -/
theorem ofText_eq {suffix : Text} (hs : Suffix.IsHex suffix) (input : Text) :
    ofText suffix input =
      ⟨Passage.spell suffix (Passage.tokenize input).1,
        (Passage.tokenize input).2.newestFirst.map (Lifted.spell suffix)⟩ := by
  have hchars : Passage.chars (Passage.ofText input) = input.length := by
    simp [Passage.chars, Passage.ofText, List.countP_map, Function.comp_def, Piece.view]
  have hrun := Passage.rewrite_spell hs (List.Subset.refl _) .new (Passage.ofText input) (lt_steps hchars.le suffix)
  rw [Passage.spell_ofText] at hrun
  rw [ofText, show Minter.new suffix = Register.new.spell suffix from rfl, hrun]
  rfl

end Tokenized

end FilterQuery
