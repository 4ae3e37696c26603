import FilterQuery.Proofs.Grammar
import FilterQuery.Proofs.Passage.Expand
import FilterQuery.Proofs.Passage.Sweep
/-!
# Passages that show tokens

A text of tokens with blanks between them is a passage that shows the tokens. The tiers of
literals turn it into one that shows each literal as a key, which is
`Renders.rewrite_literals`.
-/

namespace FilterQuery

open Passage

namespace Token

/-- The passage shows the token when the literals of the given quotes are lifted out. -/
def Shows (quotes : List Char) : Token → Passage → Prop
  | sign text, q => q = ofText text
  | literal quote content, q =>
    if quote ∈ quotes then ∃ number, q = [.key number (.literal quote) (Tier.quotation quote (ofText content))]
    else q = Tier.quotation quote (ofText content)

/-- Signs are neither blank nor quotes, and what a literal holds does not end it, nor
begins a literal that is lifted out before. -/
def Valid : Token → Prop
  | sign text => text ≠ [] ∧ ∀ c ∈ text, isBlank c = false ∧ c ≠ '\'' ∧ c ≠ '"'
  | literal quote content => '\'' ∉ content ∧ (quote = '\'' ∨ quote = '"' ∧ '"' ∉ content)

variable {quotes : List Char} {token : Token} {q : Passage}

/-- A token is shown as what it is. -/
theorem Shows.expand (h : token.Shows quotes q) : expand q = token.text := by
  cases token with
  | sign text => rw [show q = ofText text from h, expand_ofText, Token.text]
  | literal quote content =>
    have hexpand : expand (Tier.quotation quote (ofText content)) = (literal quote content).text := by
      simp [Tier.quotation, Token.text]
    rw [Shows] at h
    split at h
    · obtain ⟨number, rfl⟩ := h
      simpa [Tier.wrap] using hexpand
    · rw [h, hexpand]

/-- The tier of a quote lifts out the literals that it is looked for in, and no part of
any other token. -/
theorem Shows.turns {quote : Char} (h : token.Shows quotes q) (hquote : quote ∉ quotes)
    (hsign : ∀ text, token = sign text → quote ∉ text)
    (hliteral : ∀ other content, token = literal other content → other ∈ quotes ∨ quote ∉ content) :
    (Tier.literal quote).Turns q (token.Shows (quote :: quotes)) := by
  cases token with
  | sign text =>
    have hno : .char quote ∉ q := by
      rw [show q = ofText text from h]
      simpa [ofText] using hsign text rfl
    exact (Tier.passes_literal hno).settles.turns.imp fun q' hq' => hq' ▸ h
  | literal other content =>
    rw [Shows] at h
    split at h <;> rename_i hother
    · obtain ⟨number, rfl⟩ := h
      have hno : .char quote ∉ ([.key number (.literal other) (Tier.quotation other (ofText content))] : Passage) := by
        simp
      refine (Tier.passes_literal hno).settles.turns.imp fun q' hq' => ?_
      rw [Shows, if_pos (List.mem_cons_of_mem _ hother)]
      exact ⟨number, hq'⟩
    · have hcontent : quote ∉ content := (hliteral other content rfl).resolve_left hother
      have hno : .char quote ∉ ofText content := by simpa [ofText] using hcontent
      subst h
      by_cases he : other = quote
      · subst he
        refine (Tier.turns_quotation hno).imp fun q' hq' => ?_
        rwa [Shows, if_pos List.mem_cons_self]
      · have hno' : .char quote ∉ Tier.quotation other (ofText content) := by
          simp [Tier.quotation, hno, Ne.symm he]
        refine (Tier.passes_literal hno').settles.turns.imp fun q' hq' => ?_
        rw [Shows, if_neg (by simp [he, hother])]
        exact hq'

/-- Once all literals are lifted out, blanks stand between tokens only. -/
theorem Shows.dropBlanks (h : token.Shows ['"', '\''] q) (hv : token.Valid) :
    q.dropBlanks = q ∧ q ≠ [] := by
  cases token with
  | sign text =>
    obtain rfl := show q = ofText text from h
    refine ⟨List.filter_eq_self.2 fun a ha => ?_, by simpa [ofText] using hv.1⟩
    obtain ⟨c, hc, rfl⟩ := List.mem_map.1 ha
    simpa [Piece.isBlank, Piece.view] using (hv.2 c hc).1
  | literal quote content =>
    have hm : quote ∈ ['"', '\''] := by
      rcases hv.2 with rfl | ⟨rfl, -⟩ <;> simp
    rw [Shows, if_pos hm] at h
    obtain ⟨number, rfl⟩ := h
    exact ⟨rfl, by simp⟩

end Token

namespace Passage

/-- The passage shows the tokens one after the other, with blanks around them. -/
inductive Renders (quotes : List Char) : List Token → Passage → Prop where
  | nil {blanks : Passage} (hb : ∀ a ∈ blanks, a.isBlank = true) : Renders quotes [] blanks
  | cons {blanks q p : Passage} {token : Token} {tokens : List Token} (hb : ∀ a ∈ blanks, a.isBlank = true)
      (ht : token.Shows quotes q) (h : Renders quotes tokens p) : Renders quotes (token :: tokens) (blanks ++ q ++ p)

variable {quotes : List Char} {token : Token} {tokens : List Token} {p : Passage}

theorem Renders.prepend (h : Renders quotes tokens p) {blanks : Passage} (hb : ∀ a ∈ blanks, a.isBlank = true) :
    Renders quotes tokens (blanks ++ p) := by
  have happend : ∀ {q : Passage}, (∀ a ∈ q, a.isBlank = true) → ∀ a ∈ blanks ++ q, a.isBlank = true := by
    intro q hq a ha
    rcases List.mem_append.1 ha with ha | ha
    · exact hb a ha
    · exact hq a ha
  cases h with
  | nil hq => exact .nil (happend hq)
  | cons hq ht h =>
    rw [← List.append_assoc, ← List.append_assoc]
    exact .cons (happend hq) ht h

/-- Text of tokens with blanks between them shows the tokens. -/
theorem renders_of_spaced {tokens : List Token} {text : Text} (h : Text.Spaced (tokens.map Token.text) text) :
    Renders [] tokens (ofText text) := by
  have hshows : ∀ token : Token, token.Shows [] (ofText token.text) := by
    intro token
    cases token with
    | sign text => rfl
    | literal quote content =>
      rw [Token.Shows, if_neg (by simp)]
      simp [Token.text, Tier.quotation, ofText]
  have hnil : ∀ a ∈ ([] : Passage), a.isBlank = true := by simp
  -- the blanks behind a token are those in front of the next one
  generalize hparts : tokens.map Token.text = parts at h
  induction h generalizing tokens with
  | last part =>
    obtain ⟨token, rfl, rfl⟩ := List.map_eq_singleton_iff.1 hparts
    have hlast := Renders.cons hnil (hshows token) (.nil hnil)
    rwa [List.nil_append, List.append_nil] at hlast
  | @more part blanks parts text hb h ih =>
    obtain ⟨token, tokens, rfl, rfl, rfl⟩ := List.map_eq_cons_iff.1 hparts
    have hblanks : ∀ a ∈ ofText blanks, a.isBlank = true := by
      intro a ha
      obtain ⟨c, hc, rfl⟩ := List.mem_map.1 ha
      exact hb c hc
    have hmore := Renders.cons hnil (hshows token) ((ih rfl).prepend hblanks)
    simpa [ofText] using hmore

/-- A tier of literals turns shown tokens one by one. -/
theorem Renders.turns {quote : Char} (hquote : isBlank quote = false) (h : Renders quotes tokens p)
    (hstep : ∀ token ∈ tokens, ∀ q, token.Shows quotes q → (Tier.literal quote).Turns q (token.Shows (quote :: quotes))) :
    (Tier.literal quote).Turns p (Renders (quote :: quotes) tokens) := by
  have hblanks : ∀ {blanks : Passage}, (∀ a ∈ blanks, a.isBlank = true) → (Tier.literal quote).Turns blanks (· = blanks) := by
    intro blanks hb
    refine (Tier.passes_literal fun hm => ?_).settles.turns
    exact Bool.false_ne_true (hquote.symm.trans (hb _ hm))
  induction h with
  | nil hb =>
    refine (hblanks hb).imp fun q hq => ?_
    exact hq ▸ .nil hb
  | @cons blanks q p token tokens hb ht h ih =>
    have hturns := ((hblanks hb).append_literal (hstep token List.mem_cons_self q ht)).append_literal
      (ih fun token hm => hstep token (List.mem_cons_of_mem _ hm))
    apply hturns.imp
    rintro _ ⟨_, p', ⟨_, q', rfl, hq', rfl⟩, hp', rfl⟩
    exact .cons hb hq' hp'

/-- The tiers of literals lift out all literals, and nothing else. -/
theorem Renders.rewrite_literals (h : Renders [] tokens p) (hvalid : ∀ token ∈ tokens, token.Valid)
    (tiers : List Tier) (register : Register) :
    ∃ after q, Renders ['"', '\''] tokens q ∧
      rewrite (.literal '\'' :: .literal '"' :: tiers) register p = rewrite tiers after q := by
  -- single quotes go first, so that what stands between double quotes must not hold any
  have hsingle : ∀ token ∈ tokens, ∀ q, token.Shows [] q → (Tier.literal '\'').Turns q (token.Shows ['\'']) := by
    intro token hm q hq
    refine hq.turns (by simp) ?_ ?_ <;> rintro _ <;> have hv := hvalid token hm
    · rintro rfl hc
      exact (hv.2 _ hc).2.1 rfl
    · rintro content rfl
      exact .inr hv.1
  have hdouble : ∀ token ∈ tokens, ∀ q, token.Shows ['\''] q → (Tier.literal '"').Turns q (token.Shows ['"', '\'']) := by
    intro token hm q hq
    refine hq.turns (by simp) ?_ ?_ <;> rintro _ <;> have hv := hvalid token hm
    · rintro rfl hc
      exact (hv.2 _ hc).2.2 rfl
    · rintro content rfl
      exact hv.2.imp (by rintro rfl; simp) (·.2)
  obtain ⟨between, q₁, hq₁, hfirst⟩ := (h.turns rfl hsingle).rewrite (.literal '"' :: tiers) register
  obtain ⟨after, q₂, hq₂, hsecond⟩ := (hq₁.turns rfl hdouble).rewrite tiers between
  exact ⟨after, q₂, hq₂, hfirst.trans hsecond⟩

/-! ## Taking shown tokens apart -/

/-- A sign stands between what is shown before and what is shown after it. -/
theorem Renders.split {c : Char} {before after : List Token} (h : Renders quotes (before ++ .sign [c] :: after) p) :
    ∃ p₁ p₂, p = p₁ ++ .char c :: p₂ ∧ Renders quotes before p₁ ∧ Renders quotes after p₂ := by
  induction before generalizing p with
  | nil =>
    cases h with
    | cons hb ht h =>
      obtain rfl := ht
      exact ⟨_, _, List.append_assoc .., .nil hb, h⟩
  | cons token before ih =>
    cases h with
    | cons hb ht h =>
      obtain ⟨p₁, p₂, rfl, h₁, h₂⟩ := ih h
      exact ⟨_, p₂, (List.append_assoc ..).symm, .cons hb ht h₁, h₂⟩

theorem Renders.ne_nil (h : Renders ['"', '\''] tokens p) (hvalid : ∀ token ∈ tokens, token.Valid) (hne : tokens ≠ []) :
    p ≠ [] := by
  cases h with
  | nil => exact absurd rfl hne
  | cons hb ht h =>
    have hq := (ht.dropBlanks (hvalid _ List.mem_cons_self)).2
    simp [hq]

theorem dropBlanks_eq_nil {blanks : Passage} (hb : ∀ a ∈ blanks, a.isBlank = true) : blanks.dropBlanks = [] :=
  List.filter_eq_nil_iff.2 fun a ha => by simp [hb a ha]

/-- Without blanks, the tokens are shown side by side. -/
theorem Renders.dropBlanks (h : Renders ['"', '\''] tokens p) (hvalid : ∀ token ∈ tokens, token.Valid) :
    ∃ qs, List.Forall₂ (fun token q => token.Shows ['"', '\''] q) tokens qs ∧ p.dropBlanks = qs.flatten := by
  induction h with
  | nil hb => exact ⟨[], .nil, dropBlanks_eq_nil hb⟩
  | @cons blanks q p token tokens hb ht h ih =>
    obtain ⟨qs, hqs, hp⟩ := ih fun token hm => hvalid token (List.mem_cons_of_mem _ hm)
    refine ⟨q :: qs, .cons ht hqs, ?_⟩
    rw [dropBlanks_append, dropBlanks_append, dropBlanks_eq_nil hb, (ht.dropBlanks (hvalid token List.mem_cons_self)).1, hp]
    rfl

end Passage

end FilterQuery
