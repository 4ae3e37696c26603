import FilterQuery.Proofs.Passage.Denotes
import FilterQuery.Proofs.Passage.Unquoted
/-!
# Literals in double quotes

The tier of single quotes looks into literals in double quotes, so that two single quotes in
one of these make a literal of their own. Its key is then part of the text in double quotes
and stays in it: `convertWith_doubleQuoted` says that a comparison with a literal in double
quotes reads back as what was written iff there are less than two single quotes in it.
-/

namespace FilterQuery

open Passage

namespace Passage.Unquoted

variable {text : Text} {q : Passage} (h : Unquoted text q)
include h

/-- Written out, what is left is the text. -/
theorem expand_eq : expand q = text := by
  induction h with
  | plain front hf => exact expand_ofText front
  | single front rest hf hr => exact expand_ofText _
  | literal front content number hf hc _ ih => simp [ih, Tier.wrap, Tier.quotation]

/-- Lifting literals out brings in no character. -/
theorem mem_of_char_mem {c : Char} (hm : .char c ∈ q) : c ∈ text := by
  induction h with
  | plain front hf => simpa [ofText] using hm
  | single front rest hf hr => simpa [ofText] using hm
  | literal front content number hf hc _ ih =>
    rcases List.mem_append.1 hm with hm | hm
    · exact List.mem_append_left _ (by simpa [ofText] using hm)
    · rcases List.mem_cons.1 hm with he | hm
      · cases he
      · simp [ih hm]

/-- Text with less than two quotes is left as it is, and two quotes leave a key. -/
theorem eq_ofText_or_key_infix (suffix : Text) :
    text.count '\'' ≤ 1 ∧ q = ofText text ∨
      2 ≤ text.count '\'' ∧ ∃ number, Minter.key suffix number <:+: spell suffix q := by
  cases h with
  | plain front hf => exact .inl ⟨by simp [List.count_eq_zero.2 hf], rfl⟩
  | single front rest hf hr =>
    exact .inl ⟨by simp [List.count_eq_zero.2 hf, List.count_eq_zero.2 hr], rfl⟩
  | @literal front content rest q number hf hc h =>
    have hcount : 2 ≤ (front ++ '\'' :: (content ++ '\'' :: rest)).count '\'' := by
      simp only [List.count_append, List.count_cons_self]
      omega
    refine .inr ⟨hcount, number, ?_⟩
    rw [spell_append, spell_key_cons]
    exact (List.prefix_append _ _).isInfix.trans (List.suffix_append _ _).isInfix

/-- What is left spells out the text iff there are less than two quotes in it. -/
theorem spell_eq_iff {suffix : Text} (hf : ∀ n, ¬ Minter.key suffix n <:+: text) :
    spell suffix q = text ↔ text.count '\'' ≤ 1 := by
  rcases h.eq_ofText_or_key_infix suffix with ⟨hcount, rfl⟩ | ⟨hcount, number, hkey⟩
  · simp [hcount]
  · constructor
    · intro he
      exact absurd (he ▸ hkey) (hf number)
    · intro hle
      omega

end Passage.Unquoted

/-! ## Tokenizing -/

section Tokenize
variable {field before after content : Text} (symbol : Comparison)
  (hword : ∀ c ∈ field, isWordChar c = true) (hne : field ≠ []) (hbefore : ∀ c ∈ before, isBlank c = true)
  (hafter : ∀ c ∈ after, isBlank c = true)
include hword hbefore hafter

/-- No tier but those of comparisons looks into what stands in front of the literal. -/
theorem plain_before_literal : Plain (ofText (field ++ before ++ symbol.symbol ++ after)) := by
  have hsigns : ∀ c ∈ ['\'', '"', '(', ')', '&', '|'], isWordChar c = false ∧ isBlank c = false := by
    have hall : ['\'', '"', '(', ')', '&', '|'].all (fun c => ! isWordChar c && ! isBlank c) = true := by decide
    simpa using hall
  have hleft : Plain (ofText (field ++ before)) := by
    intro c hc hm
    rcases List.mem_append.1 (show c ∈ field ++ before by simpa [ofText] using hm) with hm | hm
    · exact absurd (hword c hm) (by simp [hsigns c hc])
    · exact absurd (hbefore c hm) (by simp [hsigns c hc])
  have hright : Plain (ofText after) := by
    intro c hc hm
    exact absurd (hafter c (by simpa [ofText] using hm)) (by simp [hsigns c hc])
  simpa [ofText] using plain_append symbol hleft hright

theorem dropBlanks_before_literal :
    (ofText (field ++ before ++ symbol.symbol ++ after)).dropBlanks = ofText field ++ ofText symbol.symbol := by
  have hkept : ∀ text : Text, (∀ c ∈ text, isBlank c = false) → (ofText text).dropBlanks = ofText text := by
    intro text h
    refine List.filter_eq_self.2 fun a ha => ?_
    obtain ⟨c, hc, rfl⟩ := List.mem_map.1 ha
    simp [Piece.isBlank, Piece.view, h c hc]
  have hfield : (ofText field).dropBlanks = ofText field := hkept field fun c hc => by
    simpa using (Bool.and_eq_true_iff.1 (hword c hc)).1
  have hsymbol : (ofText symbol.symbol).dropBlanks = ofText symbol.symbol := hkept symbol.symbol
    symbol.isBlank_of_mem_symbol
  have hblanks : ∀ text : Text, (∀ c ∈ text, isBlank c = true) → (ofText text).dropBlanks = [] := by
    intro text h
    exact dropBlanks_eq_nil (List.forall_mem_map.2 fun c hc => by simp [Piece.isBlank, Piece.view, h c hc])
  have happend : ofText (field ++ before ++ symbol.symbol ++ after) =
      ofText field ++ ofText before ++ ofText symbol.symbol ++ ofText after := by simp [ofText]
  rw [happend, dropBlanks_append, dropBlanks_append, dropBlanks_append, hfield, hsymbol, hblanks before hbefore,
    hblanks after hafter, List.append_nil, List.append_nil]

include hne in
/-- A comparison of a word with a literal in double quotes becomes a key, and the literal one
in it. -/
theorem exists_tokenize_doubleQuoted (hcontent : '"' ∉ content) :
    ∃ q number tier literal, Unquoted content q ∧
      (tokenize (field ++ before ++ symbol.symbol ++ after ++ '"' :: content ++ ['"'])).1 =
        [.key number tier (ofText field ++ ofText symbol.symbol ++
          [.key literal (.literal '"') (Tier.quotation '"' q)])] := by
  let head := ofText (field ++ before ++ symbol.symbol ++ after)
  have hhead : Plain head := plain_before_literal symbol hword hbefore hafter
  -- the tier of single quotes looks into the literal
  have hopening : (Tier.literal '\'').Passes (head ++ [.char '"']) :=
    Tier.passes_literal (by simpa using hhead '\'' (by simp))
  have hclosing : '\'' ∉ ['"'] := by decide
  obtain ⟨unquoted, q, hq, -, hsingle⟩ :=
    exists_rewrite_literals hopening Tier.all.tail .new content hclosing
  -- the tier of double quotes lifts what is left of the literal out
  let key := Piece.key unquoted.next (.literal '"') (Tier.quotation '"' q)
  have hno : .char '"' ∉ q := fun hm => hcontent (hq.mem_of_char_mem hm)
  have hpasses : (Tier.literal '"').Passes head := Tier.passes_literal (hhead '"' (by simp))
  have hdouble := Tier.rewrite_quotation hno hpasses Tier.structural unquoted []
  have hdone : (Tier.literal '"').search? Piece.view (head ++ [key] ++ []) = none := by
    have hkey : (Tier.literal '"').Passes [key] := Tier.passes_literal (by simp [key])
    rw [List.append_nil]
    exact (hpasses.append hkey).settles.search?_eq_none
  rw [rewrite_pass hdone, List.append_nil, List.append_nil] at hdouble
  -- what stands in front of the key is a comparison with it
  have hplain : Plain (head ++ [key]) := by
    intro c hc
    simpa [key] using hhead c hc
  have haccepts : Tier.comparisons.any (·.accepts ((head ++ [key]).map Piece.view)) = true := by
    have hleft : ofText (field ++ before) ≠ [] := by simp [ofText, hne]
    have hright : ofText after ++ [key] ≠ [] := by simp
    simpa [head, ofText] using exists_accepts_of_symbol symbol hleft hright
  obtain ⟨last, number, tier, -, hrun⟩ := rewrite_structural_clause hplain haccepts
    (unquoted.mint.store ⟨unquoted.next, .literal '"', Tier.quotation '"' q⟩)
  rw [dropBlanks_append, dropBlanks_before_literal symbol hword hbefore hafter] at hrun
  refine ⟨q, number, tier, unquoted.next, hq, ?_⟩
  have htext : ofText (field ++ before ++ symbol.symbol ++ after ++ '"' :: content ++ ['"']) =
      head ++ [.char '"'] ++ (ofText content ++ ofText ['"']) := by simp [head, ofText]
  have hquotation : head ++ [.char '"'] ++ (q ++ ofText ['"']) = head ++ Tier.quotation '"' q := by
    simp [Tier.quotation, ofText]
  rw [hquotation] at hsingle
  rw [tokenize, htext]
  exact congrArg Prod.fst (hsingle.trans (hdouble.trans hrun))

end Tokenize

/-! ## Reading back -/

/-- A comparison of a name with a literal in double quotes is read as a comparison with a
string, which is what was written iff there are less than two single quotes in it. -/
theorem convertWith_doubleQuoted (clock : Instant) (symbol : Comparison) {field before after content suffix : Text}
    (hword : ∀ c ∈ field, isWordChar c = true) (hname : field.IsName) (hnull : field ≠ "null".toList)
    (hbefore : ∀ c ∈ before, isBlank c = true) (hafter : ∀ c ∈ after, isBlank c = true) (hcontent : '"' ∉ content) :
    let text := field ++ before ++ symbol.symbol ++ after ++ '"' :: content ++ ['"']
    Suffix.Admissible text suffix →
      ∃ read, convertWith suffix clock text =
          .ofField (String.ofList field) (.compared symbol.symbol (.string (String.ofList read))) ∧
        (read = content ↔ content.count '\'' ≤ 1) := by
  intro text hs
  obtain ⟨q, number, tier, literal, hq, hskeleton⟩ :=
    exists_tokenize_doubleQuoted symbol hword hname.ne_nil hbefore hafter hcontent
  have hfree : ∀ {part : Text}, part <:+: text → ∀ n, ¬ Minter.key suffix n <:+: part :=
    fun hpart n hn => hs.not_infix_key n (hn.trans hpart)
  -- the field and the literal denote strings
  let operand : Operand := .word field hname.ne_nil hword
  have hoperand : operand.node clock = .string (String.ofList field) := by
    rw [Operand.node, if_neg hnull, hname.ofRelative?_eq_none]
    exact hname.ofScalar_eq
  have hfield : field <:+: text := ⟨[], before ++ symbol.symbol ++ after ++ '"' :: content ++ ['"'], by simp [text]⟩
  obtain ⟨hleft, hwordy, hne⟩ : Denotes suffix clock (operand.nodeWithin clock) (ofText field) ∧
      Wordy (ofText field) ∧ ofText field ≠ [] := denotes_operand hs.2.1 rfl (hfree hfield)
  have hliteral : '"' :: content ++ ['"'] <:+: text := ⟨field ++ before ++ symbol.symbol ++ after, [], by simp [text]⟩
  have hfresh : Fresh suffix (Tier.quotation '"' q) := by
    intro n hn
    apply hfree hliteral n
    simpa [Tier.quotation, hq.expand_eq] using hn
  have hno : .char '"' ∉ q := fun hm => hcontent (hq.mem_of_char_mem hm)
  have hright : Denotes suffix clock _ _ := denotes_quotation hs.2.1 hno (.inr rfl) hfresh literal
  have hvalued : Valued [.key literal (.literal '"') (Tier.quotation '"' q)] := by
    intro c hc
    simp at hc
  -- so that the key of the clause denotes their comparison
  have hdenotes := (denotes_compared hs.2.1 symbol hleft hwordy hne hright hvalued).key hs.2.1 number tier
  rw [← hskeleton] at hdenotes
  have hcontentFree : ∀ n, ¬ Minter.key suffix n <:+: content := fun n hn =>
    hfree hliteral n (hn.trans ⟨['"'], ['"'], by simp⟩)
  refine ⟨spell suffix q, ?_, hq.spell_eq_iff hcontentFree⟩
  have hquote : isBlank '"' = false := by decide
  rw [convertWith_eq hs.2.1 hquote (by simp) hdenotes.fresh, hdenotes.compile]
  have hnode : symbol.nodeWithin (operand.nodeWithin clock) (.descend fun _ => .string (String.ofList (spell suffix q)))
      (defaultCeiling + 1) =
        .ofField (operand.node clock).fieldName (symbol.constraint (.string (String.ofList (spell suffix q)))) := rfl
  rw [hnode, hoperand, Node.fieldName, symbol.constraint_eq_compared]

/-- One single quote is read back, and two of them make a literal within the literal. -/
theorem convertWith_doubleQuoted_nested :
    let clock : Instant := ⟨0, 0, by decide, by decide, by decide⟩
    let text (content : Text) :=
      "x".toList ++ " ".toList ++ Comparison.equal.symbol ++ " ".toList ++ '"' :: content ++ ['"']
    convertWith "f0".toList clock (text "it's".toList) = .ofField "x" (.string "it's") ∧
      convertWith "f0".toList clock (text "a'b'c".toList) ≠ .ofField "x" (.string "a'b'c") := by
  intro clock text
  have hword : ∀ c ∈ "x".toList, isWordChar c = true := List.forall_mem_singleton.2 (by decide)
  have hname : Text.IsName "x".toList :=
    ⟨by decide, List.forall_mem_singleton.2 (by decide), List.forall_mem_singleton.2 (by decide),
      List.forall_mem_singleton.2 (by decide), by decide, by decide, by decide⟩
  have hblank : ∀ c ∈ " ".toList, isBlank c = true := List.forall_mem_singleton.2 (by decide)
  have hread : ∀ content : Text, '"' ∉ content → Suffix.Admissible (text content) "f0".toList →
      ∃ read, convertWith "f0".toList clock (text content) = .ofField "x" (.string (String.ofList read)) ∧
        (read = content ↔ content.count '\'' ≤ 1) := fun content hcontent hs =>
    convertWith_doubleQuoted clock .equal hword hname (by decide) hblank hblank hcontent hs
  obtain ⟨read, hone, hiff⟩ := hread "it's".toList (by decide) (by decide)
  obtain ⟨other, htwo, hiff'⟩ := hread "a'b'c".toList (by decide) (by decide)
  refine ⟨?_, fun he => ?_⟩
  · rw [hiff.2 (by decide)] at hone
    exact hone
  · have hstring : Node.ofField "x" (.string (String.ofList other)) = .ofField "x" (.string "a'b'c") :=
      htwo.symm.trans he
    have hequal : String.ofList other = "a'b'c" := by simpa [Node.ofField] using hstring
    have hcontent : other = "a'b'c".toList := by rw [← hequal, String.toList_ofList]
    exact absurd (hiff'.1 hcontent) (by decide)

end FilterQuery
