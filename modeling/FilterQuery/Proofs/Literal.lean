import FilterQuery.Compile
import FilterQuery.Proofs.Passage.Expand
import FilterQuery.Proofs.Passage.Sweep
/-!
# Literals are opaque

What stands between two single quotes has no influence on how the rest of a filter
is tokenized: `Tokenized.exists_ofText_literal` gives one skeleton and one table but
for the literal's own entry, whatever the literal holds, and that entry compiles to
the string it holds.
-/

namespace FilterQuery

/-! ## What was noted down before has no influence -/

namespace Minter

/-- Adds to a journal of lifts, and depends on nothing that it holds. -/
def Journals (suffix : Text) (rewriting : List Lift → Text × Minter) : Prop :=
  ∃ (text : Text) (minted : Nat) (lifts : List Lift), ∀ journal,
    rewriting journal = (text, ⟨suffix, minted, lifts ++ journal⟩)

/-- Whatever is noted down before a rewriting that journals is part of what it adds. -/
theorem Journals.store {suffix : Text} {rewriting next : List Lift → Text × Minter}
    (h : Journals suffix next) (lift : Lift) (lifts : List Lift)
    (hstep : ∀ journal, rewriting journal = next (lift :: (lifts ++ journal))) : Journals suffix rewriting := by
  obtain ⟨text, minted, more, h⟩ := h
  refine ⟨text, minted, more ++ lift :: lifts, fun journal => ?_⟩
  rw [hstep, h, List.append_assoc, List.cons_append]

/-- A rewriting adds its lifts to those noted down before, and nothing else depends on
these. -/
theorem journals_rewrite (suffix : Text) (fuel : Nat) (tiers : List Tier) (minted : Nat) (text : Text) :
    Journals suffix fun journal => rewrite fuel tiers ⟨suffix, minted, journal⟩ text := by
  induction fuel generalizing tiers minted text with
  | zero => exact ⟨text, minted, [], fun _ => rfl⟩
  | succ fuel ih =>
    cases tiers with
    | nil => exact ⟨text, minted, [], fun _ => rfl⟩
    | cons tier tiers =>
      cases hf : tier.find? text with
      | none =>
        obtain ⟨text', minted', lifts, h⟩ := ih tiers minted text
        refine ⟨text', minted', lifts, fun journal => ?_⟩
        have hstep : rewrite (fuel + 1) (tier :: tiers) ⟨suffix, minted, journal⟩ text =
            rewrite fuel tiers ⟨suffix, minted, journal⟩ text := by rw [rewrite, hf]
        exact hstep.trans (h journal)
      | some part =>
        have hkey : ∀ journal, next ⟨suffix, minted, journal⟩ = key suffix (minted + 1) := fun _ => rfl
        have hmint : ∀ journal, mint ⟨suffix, minted, journal⟩ = ⟨suffix, minted + 1, journal⟩ := fun _ => rfl
        obtain ⟨content, inner, lifts, hcontent⟩ := ih Tier.all (minted + 1) part.interior
        let replaced := text.replaceFirst part (key suffix (minted + 1))
        -- what is stored depends on the tier, but on no journal
        cases tier with
        | group =>
          apply (ih (.group :: tiers) inner replaced).store
            ⟨.group, key suffix (minted + 1), content.dropBlanks⟩ lifts
          intro journal
          rw [rewrite, hf]
          simp only [hmint, hcontent, hkey, store, replaced]
        | literal quote =>
          apply (ih (.literal quote :: tiers) (minted + 1) replaced).store
            ⟨.literal quote, key suffix (minted + 1), part⟩ []
          intro journal
          rw [rewrite, hf]
          simp only [hmint, hkey, store, List.nil_append, replaced]
        | comparison symbol =>
          apply (ih (.comparison symbol :: tiers) (minted + 1) replaced).store
            ⟨.comparison symbol, key suffix (minted + 1), part.dropBlanks⟩ []
          intro journal
          rw [rewrite, hf]
          simp only [hmint, hkey, store, List.nil_append, replaced]
        | conjunction =>
          apply (ih (.conjunction :: tiers) (minted + 1) replaced).store
            ⟨.conjunction, key suffix (minted + 1), part.dropBlanks⟩ []
          intro journal
          rw [rewrite, hf]
          simp only [hmint, hkey, store, List.nil_append, replaced]

end Minter

/-! ## Compiling a literal -/

namespace Shape

theorem between?_append {first last : Char} {content : Text} (hf : first ∉ content) (hl : last ∉ content) :
    between? first last (first :: content ++ [last]) = some content := by
  simp [between?, hf, hl]

theorem ofText_single (clock : Instant) {content : Text} (h : '\'' ∉ content) :
    ofText clock ('\'' :: content ++ ['\'']) = quoted content := by
  have hnull : '\'' :: content ++ ['\''] ≠ "null".toList := fun he => absurd (List.cons.inj he).1 (by decide)
  have hdate : clock.ofRelative? ('\'' :: content ++ ['\'']) = none := by simp [Instant.ofRelative?]
  have hquoted : quoted? ('\'' :: content ++ ['\'']) = some content := by
    rw [quoted?, between?_append h h]
    rfl
  rw [ofText, if_neg hnull, hdate, hquoted]
  rfl

end Shape

namespace Table

variable {table : Table} {text value : Text}

theorem resolve?_of_get? (h : table.get? text = some value) (hv : table.get? value = none) :
    table.resolve? text = some value := by
  have hsize : table.size ≠ 0 := by
    intro h0
    obtain rfl : table = ⟨[]⟩ := by
      cases table
      simpa [size] using h0
    cases h
  obtain ⟨size, hsize⟩ := Nat.exists_eq_add_one_of_ne_zero hsize
  rw [resolve?, hsize, follow?, h]
  simp only [follow?, hv]

end Table

/-- The key of a literal compiles to the content of the literal. -/
theorem Register.compile_literal {suffix : Text} {register : Register} {key content : Text}
    (h : '\'' ∉ content) (hget : (register.table suffix).get? key = some ('\'' :: content ++ ['\'']))
    (clock : Instant) : (register.table suffix).compile clock key = .string (String.ofList content) := by
  have hnone : (register.table suffix).get? ('\'' :: content ++ ['\'']) = none := by
    cases hg : (register.table suffix).get? ('\'' :: content ++ ['\'']) with
    | none => rfl
    | some value =>
      obtain ⟨lifted, -, hk⟩ := eq_key_of_get? hg
      exact absurd (List.cons.inj hk).1 (by decide)
  have hlevels : defaultCeiling + 1 - 0 = defaultCeiling + 1 := rfl
  rw [Table.compile, Table.compileAt, hlevels, Table.compileWithin, Table.resolve?_of_get? hget hnone]
  simp only [Shape.ofText_single clock h]
  rfl

namespace Tokenized

/-- Between two single quotes, after an even number of them, any content gives the
same skeleton and the same table but for its own entry. -/
theorem exists_ofText_literal {suffix : Text} (hs : Suffix.IsHex suffix) {pre : Text}
    (hpre : Even (pre.count '\'')) (post : Text) :
    ∃ (skeleton : Text) (number : Nat) (newer older : List Lift), ∀ content : Text, '\'' ∉ content →
      ofText suffix (pre ++ '\'' :: content ++ '\'' :: post) =
        ⟨skeleton, newer ++ ⟨.literal '\'', Minter.key suffix number, '\'' :: content ++ ['\'']⟩ :: older⟩ := by
  obtain ⟨register, front, -, hsettles, hfront⟩ := Tier.exists_turns_of_even hpre .new
  have hpasses := hsettles.passes_literal
  let number := register.next
  let tiers := Tier.all.tail
  let lifted (content : Text) : Lifted :=
    ⟨number, .literal '\'', Tier.quotation '\'' (Passage.ofText content)⟩
  let middle (content : Text) : Passage := front ++ [(lifted content).piece] ++ Passage.ofText post
  have htokenize : ∀ content : Text, '\'' ∉ content →
      Passage.tokenize (pre ++ '\'' :: content ++ '\'' :: post) =
        Passage.rewrite Tier.all (register.mint.store (lifted content)) (middle content) := by
    intro content hc
    have hno : Piece.char '\'' ∉ Passage.ofText content := by simpa [Passage.ofText] using hc
    have htext : Passage.ofText (pre ++ '\'' :: content ++ '\'' :: post) =
        [] ++ Passage.ofText pre ++ (Tier.quotation '\'' (Passage.ofText content) ++ Passage.ofText post) := by
      simp [Passage.ofText, Tier.quotation]
    rw [Passage.tokenize, htext]
    apply (hfront tiers [] _ (Tier.Passes.nil _) trivial).trans
    rw [List.nil_append, ← List.append_assoc]
    exact Tier.rewrite_quotation hno hpasses tiers register (Passage.ofText post)
  -- spelled out, the passages are one text, whatever the key of the literal stands for
  let text := Passage.spell suffix front ++ Minter.key suffix number ++ post
  have hspell : ∀ content, Passage.spell suffix (middle content) = text := by
    intro content
    simp [middle, lifted, Lifted.piece, text]
  let fuel := 13 * (Passage.chars front + Passage.chars (Passage.ofText post)) + Tier.all.length + 1
  have hfuel : ∀ content, 13 * Passage.chars (middle content) + Tier.all.length < fuel := by
    intro content
    have hchars : Passage.chars (middle content) =
        Passage.chars front + Passage.chars (Passage.ofText post) := by
      simp [middle, Passage.chars, Lifted.piece, Piece.view, List.countP_append]
    rw [hchars]
    exact Nat.lt_succ_self _
  obtain ⟨skeleton, minted, newer, hrun⟩ := Minter.journals_rewrite suffix fuel Tier.all number text
  refine ⟨skeleton, number, newer, register.newestFirst.map (Lifted.spell suffix), fun content hc => ?_⟩
  have h := Passage.rewrite_spell hs (List.Subset.refl _) (register.mint.store (lifted content))
    (middle content) (hfuel content)
  rw [hspell] at h
  have hj := hrun (((lifted content).spell suffix) :: register.newestFirst.map (Lifted.spell suffix))
  have heq := h.symm.trans hj
  rw [ofText_eq hs, htokenize content hc]
  obtain ⟨htext, hregister⟩ := Prod.mk.inj heq
  have hlifts := congrArg Minter.newestFirst hregister
  simp only [Register.spell] at hlifts
  rw [htext, hlifts]
  simp [lifted, Lifted.spell, Tier.quotation]

/-- The content of a literal shows in nothing but its own entry, which holds it as it
is and compiles to it. -/
theorem ofText_literal {pre post s₁ s₂ suffix : Text} (hpre : Even (pre.count '\'')) (h₁ : '\'' ∉ s₁)
    (h₂ : '\'' ∉ s₂) (hs : Suffix.IsHex suffix) :
    let run (content : Text) := ofText suffix (pre ++ '\'' :: content ++ '\'' :: post)
    (run s₁).skeleton = (run s₂).skeleton ∧
      ∃ key older newer,
        (run s₁).table.toList = older ++ ⟨key, '\'' :: s₁ ++ ['\'']⟩ :: newer ∧
        (run s₂).table.toList = older ++ ⟨key, '\'' :: s₂ ++ ['\'']⟩ :: newer ∧
        ∀ clock, (run s₁).table.compile clock key = .string (String.ofList s₁) ∧
          (run s₂).table.compile clock key = .string (String.ofList s₂) := by
  intro run
  obtain ⟨skeleton, number, newer, older, hrun⟩ := exists_ofText_literal hs hpre post
  have hlist : ∀ content, '\'' ∉ content → (run content).table.toList = older.reverse.map Lift.entry ++
      ⟨Minter.key suffix number, '\'' :: content ++ ['\'']⟩ :: newer.reverse.map Lift.entry := by
    intro content hc
    rw [show run content = _ from hrun content hc]
    simp [table, Table.toList, Lift.entry]
  have hcompile : ∀ content, '\'' ∉ content → ∀ clock,
      (run content).table.compile clock (Minter.key suffix number) = .string (String.ofList content) := by
    intro content hc clock
    have htable : (run content).table =
        (Passage.tokenize (pre ++ '\'' :: content ++ '\'' :: post)).2.table suffix := table_ofText hs _
    have hm : ⟨Minter.key suffix number, '\'' :: content ++ ['\'']⟩ ∈ (run content).table.toList := by
      rw [hlist content hc]
      exact List.mem_append_right _ List.mem_cons_self
    rw [htable, Table.toList, List.mem_reverse] at hm
    rw [htable]
    exact Register.compile_literal hc
      (Table.get?_of_mem (Register.nodup_keys suffix (Passage.tokenize_sound _).1) hm) clock
  refine ⟨by simp only [run, hrun s₁ h₁, hrun s₂ h₂], Minter.key suffix number, older.reverse.map Lift.entry,
    newer.reverse.map Lift.entry, hlist s₁ h₁, hlist s₂ h₂, fun clock => ?_⟩
  exact ⟨hcompile s₁ h₁ clock, hcompile s₂ h₂ clock⟩

theorem ofText_literal_operators :
    let run (content : Text) :=
      ofText "f0".toList ("(a = 'p') & b = ".toList ++ '\'' :: content ++ '\'' :: " | c ~ \"1\"".toList)
    (run ") | (\"x".toList).skeleton = (run []).skeleton ∧
      ∃ key older newer,
        (run ") | (\"x".toList).table.toList = older ++ ⟨key, "') | (\"x'".toList⟩ :: newer ∧
        (run []).table.toList = older ++ ⟨key, "''".toList⟩ :: newer ∧
        ∀ clock, (run ") | (\"x".toList).table.compile clock key = .string ") | (\"x" ∧
          (run []).table.compile clock key = .string "" :=
  ofText_literal (by decide) (by decide) (by decide) rfl

end Tokenized

end FilterQuery
