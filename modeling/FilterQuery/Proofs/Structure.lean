import FilterQuery.Proofs.Passage.Nest
import FilterQuery.Proofs.Passage.Denotes
/-!
# Structure and precedence

Tokenizing and compiling a written filter gives the tree that the filter means, which is
`Filter.tree_of_spaced`. The literals of the text become keys first; then, from the inside
out, each group becomes the key of a flat passage, in which clauses and alternatives
become keys in their turn. `Filter.convert_of_spaced` is the same for a conversion, which
finds the suffix itself.
-/

namespace FilterQuery

open Passage

/-! ## Tokens of filters -/

/-- A sign of characters that are neither blank nor quotes is valid. -/
theorem Token.valid_sign {text : Text} (hne : text ≠ [])
    (h : text.all (fun c => ! isBlank c && c ≠ '\'' && c ≠ '"') = true) : (sign text).Valid := by
  refine ⟨hne, ?_⟩
  simpa [and_assoc] using h

theorem Operand.valid_token (operand : Operand) : operand.token.Valid := by
  cases operand with
  | word text hne h =>
    refine ⟨hne, fun c hc => ?_⟩
    have hword := h c hc
    refine ⟨(by simpa using (Bool.and_eq_true_iff.1 hword).1), ?_, ?_⟩ <;> (rintro rfl; cases hword)
  | single content h => exact ⟨h, .inl rfl⟩
  | double content h => exact ⟨h.1, .inr ⟨rfl, h.2⟩⟩

theorem Operand.valid_listed (items : List Operand) : ∀ token ∈ listed items, token.Valid := by
  induction items using Operand.listed.induct with
  | case1 => simp [listed]
  | case2 item => simpa [listed] using item.valid_token
  | case3 item next items ih =>
    simp only [listed, List.forall_mem_cons]
    exact ⟨item.valid_token, Token.valid_sign (List.cons_ne_nil _ _) rfl, ih⟩

theorem Value.valid_tokens (value : Value) : ∀ token ∈ value.tokens, token.Valid := by
  cases value with
  | operand operand => simpa [tokens] using operand.valid_token
  | list items =>
    simp only [tokens, List.cons_append, List.forall_mem_cons, List.forall_mem_append, List.not_mem_nil,
      false_implies, implies_true, and_true]
    exact ⟨Token.valid_sign (List.cons_ne_nil _ _) rfl, Operand.valid_listed items, Token.valid_sign (List.cons_ne_nil _ _) rfl⟩

theorem Comparison.valid_symbol (symbol : Comparison) : (Token.sign symbol.symbol).Valid :=
  Token.valid_sign symbol.symbol_ne_nil (by cases symbol <;> rfl)

mutual

theorem Filter.valid_tokens : ∀ filter : Filter, ∀ token ∈ filter.tokens, token.Valid
  | .last alternative => alternative.valid_tokens
  | .more alternative filter => by
    simp only [Filter.tokens, List.forall_mem_append, List.forall_mem_cons]
    exact ⟨alternative.valid_tokens, Token.valid_sign (List.cons_ne_nil _ _) rfl, filter.valid_tokens⟩

theorem Alternative.valid_tokens : ∀ alternative : Alternative, ∀ token ∈ alternative.tokens, token.Valid
  | .last clause => clause.valid_tokens
  | .more clause alternative => by
    simp only [Alternative.tokens, List.forall_mem_append, List.forall_mem_cons]
    exact ⟨clause.valid_tokens, Token.valid_sign (List.cons_ne_nil _ _) rfl, alternative.valid_tokens⟩

theorem Clause.valid_tokens : ∀ clause : Clause, ∀ token ∈ clause.tokens, token.Valid
  | .comparison field symbol value => by
    simp only [Clause.tokens, List.forall_mem_cons]
    exact ⟨field.valid_token, symbol.valid_symbol, value.valid_tokens⟩
  | .group filter => by
    simp only [Clause.tokens, List.cons_append, List.forall_mem_cons, List.forall_mem_append, List.not_mem_nil,
      false_implies, implies_true, and_true]
    exact ⟨Token.valid_sign (List.cons_ne_nil _ _) rfl, filter.valid_tokens, Token.valid_sign (List.cons_ne_nil _ _) rfl⟩

end

/-! ## Filters are clauses -/

theorem Node.isClause_joined (op : Operator) {nodes : List Node} (h : ∀ node ∈ nodes, node.isClause = true) :
    (joined op nodes).isClause = true := by
  rcases nodes with _ | ⟨node, _ | ⟨other, nodes⟩⟩
  · rfl
  · exact h node List.mem_cons_self
  · rfl

mutual

theorem Filter.isClause_nodes (clock : Instant) : ∀ filter : Filter, ∀ node ∈ filter.nodes clock, node.isClause = true
  | .last alternative => by
    simp only [Filter.nodes, List.forall_mem_singleton]
    exact Node.isClause_joined .and (alternative.isClause_nodes clock)
  | .more alternative filter => by
    simp only [Filter.nodes, List.forall_mem_cons]
    exact ⟨Node.isClause_joined .and (alternative.isClause_nodes clock), filter.isClause_nodes clock⟩

theorem Alternative.isClause_nodes (clock : Instant) :
    ∀ alternative : Alternative, ∀ node ∈ alternative.nodes clock, node.isClause = true
  | .last clause => by
    simp only [Alternative.nodes, List.forall_mem_singleton]
    exact clause.isClause_node clock
  | .more clause alternative => by
    simp only [Alternative.nodes, List.forall_mem_cons]
    exact ⟨clause.isClause_node clock, alternative.isClause_nodes clock⟩

theorem Clause.isClause_node (clock : Instant) : ∀ clause : Clause, (clause.node clock).isClause = true
  | .comparison _ _ _ => rfl
  | .group filter => Node.isClause_joined .or (filter.isClause_nodes clock)

end

theorem Alternative.isClause_node (clock : Instant) (alternative : Alternative) :
    (alternative.node clock).isClause = true :=
  Node.isClause_joined .and (alternative.isClause_nodes clock)

/-! ## Levels enough -/

/-- Operands take one level. -/
theorem Operand.nodeWithin_eq (clock : Instant) (operand : Operand) {levels : Nat} (h : 1 ≤ levels) :
    operand.nodeWithin clock levels = operand.node clock := by
  obtain ⟨levels, rfl⟩ := Nat.exists_eq_add_one.2 h
  rfl

/-- Values take two levels. -/
theorem Value.nodeWithin_eq (clock : Instant) (value : Value) {levels : Nat} (h : 2 ≤ levels) :
    value.nodeWithin clock levels = value.node clock := by
  cases value with
  | operand operand => exact operand.nodeWithin_eq clock (by omega)
  | list items =>
    obtain ⟨levels, rfl⟩ := Nat.exists_eq_add_one.2 (Nat.zero_lt_of_lt h)
    have hitems : items.map (·.nodeWithin clock levels) = items.map (·.node clock) :=
      List.map_congr_left fun item _ => item.nodeWithin_eq clock (by omega)
    rw [nodeWithin, Node.descend, hitems, node]

/-- With levels enough for all parts, what is joined is joined as a whole. -/
theorem Node.joinedWithin_eq {ι : Type} {within : ι → Nat → Node} {node : ι → Node} {depth : ι → Nat} {xs : List ι}
    (hne : xs ≠ []) (h : ∀ x ∈ xs, ∀ levels, depth x + 3 ≤ levels → within x levels = node x)
    (hclause : ∀ x ∈ xs, (node x).isClause = true) (connective : Connective) {levels : Nat}
    (hlevels : joinedDepth (xs.map depth) + 3 ≤ levels) :
    joinedWithin connective (xs.map within) levels = joined connective.operator (xs.map node) := by
  rcases xs with _ | ⟨x, _ | ⟨y, xs⟩⟩
  · exact absurd rfl hne
  · exact h x List.mem_cons_self levels hlevels
  · obtain ⟨levels, rfl⟩ := Nat.exists_eq_add_one.2 (Nat.zero_lt_of_lt hlevels)
    -- the parts are one level below the clauses, and as deep as any of them needs
    have hnodes : ((x :: y :: xs).map within).map (· levels) = (x :: y :: xs).map node := by
      rw [List.map_map]
      refine List.map_congr_left fun z hz => ?_
      have hdepth : depth z < joinedDepth ((x :: y :: xs).map depth) :=
        lt_joinedDepth (by simp) (List.mem_map_of_mem hz)
      exact h z hz levels (by omega)
    have hclauses : ((x :: y :: xs).map node).filter (·.isClause) = (x :: y :: xs).map node :=
      List.filter_eq_self.2 (List.forall_mem_map.2 hclause)
    have hdescend : joinedWithin connective ((x :: y :: xs).map within) (levels + 1) =
        .ofClauses connective (((x :: y :: xs).map within).map (· levels)) := rfl
    rw [hdescend, hnodes, Node.ofClauses, hclauses]
    rfl

theorem Alternative.nodeWithin_eq {clock : Instant} {alternative : Alternative}
    (h : ∀ clause ∈ alternative.clauses, ∀ levels, clause.depth + 3 ≤ levels →
      clause.nodeWithin clock levels = clause.node clock)
    (levels : Nat) (hlevels : alternative.depth + 3 ≤ levels) :
    alternative.nodeWithin clock levels = alternative.node clock := by
  rw [Alternative.depth, alternative.depths_eq_map] at hlevels
  rw [Alternative.nodeWithin, Alternative.node, alternative.nodesWithin_eq_map, alternative.nodes_eq_map]
  exact Node.joinedWithin_eq alternative.clauses_ne_nil h (fun clause _ => clause.isClause_node clock) .and hlevels

theorem Filter.nodeWithin_eq {clock : Instant} {filter : Filter}
    (h : ∀ alternative ∈ filter.alternatives, ∀ levels, alternative.depth + 3 ≤ levels →
      alternative.nodeWithin clock levels = alternative.node clock)
    (levels : Nat) (hlevels : filter.depth + 3 ≤ levels) : filter.nodeWithin clock levels = filter.node clock := by
  rw [Filter.depth, filter.depths_eq_map] at hlevels
  rw [Filter.nodeWithin, Filter.node, filter.nodesWithin_eq_map, filter.nodes_eq_map]
  exact Node.joinedWithin_eq filter.alternatives_ne_nil h (fun alternative _ => alternative.isClause_node clock) .or
    hlevels

mutual

/-- Alternatives take three levels more than they are deep. -/
theorem Filter.nodeWithin_alternatives (clock : Instant) : ∀ (filter : Filter), ∀ alternative ∈ filter.alternatives,
    ∀ levels, alternative.depth + 3 ≤ levels → alternative.nodeWithin clock levels = alternative.node clock
  | .last alternative => by
    simp only [Filter.alternatives, List.forall_mem_singleton]
    exact Alternative.nodeWithin_eq (alternative.nodeWithin_clauses clock)
  | .more alternative filter => by
    simp only [Filter.alternatives, List.forall_mem_cons]
    exact ⟨Alternative.nodeWithin_eq (alternative.nodeWithin_clauses clock), filter.nodeWithin_alternatives clock⟩

/-- Clauses take three levels more than they are deep. -/
theorem Alternative.nodeWithin_clauses (clock : Instant) : ∀ (alternative : Alternative), ∀ clause ∈ alternative.clauses,
    ∀ levels, clause.depth + 3 ≤ levels → clause.nodeWithin clock levels = clause.node clock
  | .last clause => by
    simp only [Alternative.clauses, List.forall_mem_singleton]
    exact clause.nodeWithin_eq clock
  | .more clause alternative => by
    simp only [Alternative.clauses, List.forall_mem_cons]
    exact ⟨clause.nodeWithin_eq clock, alternative.nodeWithin_clauses clock⟩

/-- A clause takes three levels more than it is deep: one for a comparison, one for a list
as its value, and one for the items. -/
theorem Clause.nodeWithin_eq (clock : Instant) : ∀ (clause : Clause) (levels : Nat),
    clause.depth + 3 ≤ levels → clause.nodeWithin clock levels = clause.node clock
  | .comparison field symbol value, levels, hlevels => by
    obtain ⟨levels, rfl⟩ := Nat.exists_eq_add_one.2 (Nat.zero_lt_of_lt hlevels)
    have hfield : field.nodeWithin clock levels = field.node clock := field.nodeWithin_eq clock (by omega)
    have hvalue : value.nodeWithin clock levels = value.node clock := value.nodeWithin_eq clock (by omega)
    rw [Clause.nodeWithin, Comparison.nodeWithin, Node.descend, hfield, hvalue, symbol.constraint_eq_compared, Clause.node]
  | .group filter, levels, hlevels => Filter.nodeWithin_eq (filter.nodeWithin_alternatives clock) levels hlevels

end

/-! ## Clauses without inner groups -/

/-- What the tier of groups leaves of a clause: it denotes the tree of the clause, and
is either a key or something that becomes one. -/
structure Clause.Shown (suffix : Text) (clock : Instant) (clause : Clause) (seg : Passage) : Prop where
  plain : Plain seg
  denotes : Denotes suffix clock (clause.nodeWithin clock) seg.dropBlanks
  lifted : Tier.comparisons.any (·.accepts (seg.map Piece.view)) = true ∨ IsKey seg.dropBlanks

/-- The clauses of an alternative are shown in order. -/
def Alternative.Shown (suffix : Text) (clock : Instant) (alternative : Alternative) (segs : List Passage) : Prop :=
  List.Forall₂ (Clause.Shown suffix clock) alternative.clauses segs

/-- The alternatives of a filter are shown in order. -/
def Filter.Shown (suffix : Text) (clock : Instant) (filter : Filter) (segss : List (List Passage)) : Prop :=
  List.Forall₂ (Alternative.Shown suffix clock) filter.alternatives segss

section Flat
variable {suffix : Text} {clock : Instant}

theorem Clause.Shown.ne_nil {clause : Clause} {seg : Passage} (h : clause.Shown suffix clock seg) : seg ≠ [] := by
  rintro rfl
  rcases h.lifted with hany | ⟨number, tier, value, he⟩
  · obtain ⟨tier, -, haccepts⟩ := List.any_eq_true.1 hany
    rw [List.map_nil, Tier.accepts_nil] at haccepts
    cases haccepts
  · cases he

theorem Alternative.Shown.ne_nil {alternative : Alternative} {segs : List Passage}
    (h : alternative.Shown suffix clock segs) : segs ≠ [] := by
  rintro rfl
  exact alternative.clauses_ne_nil (List.forall₂_nil_right_iff.1 h)

theorem Alternative.Shown.exists_of_mem {alternative : Alternative} {segs : List Passage} {seg : Passage}
    (h : alternative.Shown suffix clock segs) (hm : seg ∈ segs) : ∃ clause : Clause, clause.Shown suffix clock seg := by
  obtain ⟨clause, -, hshown⟩ := exists_of_mem_forall₂ h hm
  exact ⟨clause, hshown⟩

theorem Filter.Shown.ne_nil {filter : Filter} {segss : List (List Passage)} (h : filter.Shown suffix clock segss) :
    segss ≠ [] := by
  rintro rfl
  exact filter.alternatives_ne_nil (List.forall₂_nil_right_iff.1 h)

theorem Filter.Shown.exists_of_mem {filter : Filter} {segss : List (List Passage)} {segs : List Passage}
    (h : filter.Shown suffix clock segss) (hm : segs ∈ segss) :
    ∃ alternative : Alternative, alternative.Shown suffix clock segs := by
  obtain ⟨alternative, -, hshown⟩ := exists_of_mem_forall₂ h hm
  exact ⟨alternative, hshown⟩

/-- No tier but those of comparisons looks into the clauses. -/
theorem Filter.Shown.plain {filter : Filter} {segss : List (List Passage)} (h : filter.Shown suffix clock segss) :
    ∀ segs ∈ segss, ∀ seg ∈ segs, Plain seg := by
  intro segs hsegs seg hseg
  obtain ⟨alternative, halternative⟩ := h.exists_of_mem hsegs
  obtain ⟨clause, hclause⟩ := halternative.exists_of_mem hseg
  exact hclause.plain

variable (hs : Suffix.IsHex suffix)
include hs

/-- The tiers of comparisons leave the key of a clause. -/
theorem Clause.Shown.keyed {clause : Clause} {seg q : Passage} (h : clause.Shown suffix clock seg)
    (hq : ClauseLifted Tier.comparisons seg q) : Keyed suffix clock (clause.nodeWithin clock) q := by
  unfold ClauseLifted at hq
  split at hq <;> rename_i hany
  · obtain ⟨number, tier, -, rfl⟩ := hq
    exact ⟨⟨number, tier, _, rfl⟩, h.denotes.key hs number tier⟩
  · subst hq
    exact ⟨h.lifted.resolve_left hany, h.denotes⟩

/-- All tiers leave the key of an alternative. -/
theorem Alternative.keyed {alternative : Alternative} {segs : List Passage} {q : Passage}
    (h : alternative.Shown suffix clock segs) (hq : AlternativeLifted segs q) :
    Keyed suffix clock (alternative.nodeWithin clock) q := by
  obtain ⟨qs, hqs, hq⟩ := hq
  have hkeyed : List.Forall₂ (Keyed suffix clock) (alternative.nodesWithin clock) qs := by
    rw [alternative.nodesWithin_eq_map]
    exact List.forall₂_map_left_iff.2 (forall₂_trans (fun clause seg q hseg hq => hseg.keyed hs hq) h hqs)
  have hne := alternative.nodesWithin_ne_nil clock
  have hdenotes := denotes_dropBlanks_joined hs hkeyed hne .and
  split at hq <;> rename_i hlength
  · obtain ⟨number, rfl⟩ := hq
    exact ⟨⟨number, .conjunction, _, rfl⟩, hdenotes.key hs number .conjunction⟩
  · subst hq
    refine ⟨?_, hdenotes⟩
    have hone : ∃ r, qs = [r] := by
      rw [hqs.length_eq] at hlength
      have hpos := List.length_pos_iff.2 hne
      rw [hkeyed.length_eq] at hpos
      exact List.length_eq_one_iff.1 (by omega)
    obtain ⟨r, rfl⟩ := hone
    obtain ⟨node, -, hr⟩ := exists_of_mem_forall₂ hkeyed (List.mem_singleton.2 rfl)
    exact hr.isKey

/-- All tiers make of a filter without inner groups the keys of its alternatives. -/
theorem Filter.exists_keyed {filter : Filter} {segss : List (List Passage)}
    (h : filter.Shown suffix clock segss) (register : Register) :
    ∃ after qs, List.Forall₂ (Keyed suffix clock) (filter.nodesWithin clock) qs ∧
      rewrite Tier.all register (ofAlternatives segss) = (join '|' qs, after) := by
  have hsegs : ∀ segs ∈ segss, segs ≠ [] ∧ ∀ seg ∈ segs, Plain seg := by
    intro segs hm
    obtain ⟨alternative, halternative⟩ := h.exists_of_mem hm
    exact ⟨halternative.ne_nil, h.plain segs hm⟩
  obtain ⟨after, qs, hqs, hrun⟩ := rewrite_flat h.ne_nil hsegs register
  have hkeyed : ∀ (alternative : Alternative) (segs : List Passage) (q : Passage),
      alternative.Shown suffix clock segs → AlternativeLifted segs q →
      Keyed suffix clock (alternative.nodeWithin clock) q :=
    fun _ _ _ halternative hq => Alternative.keyed hs halternative hq
  refine ⟨after, qs, ?_, hrun⟩
  rw [filter.nodesWithin_eq_map]
  exact List.forall₂_map_left_iff.2 (forall₂_trans hkeyed h hqs)

/-- The key of a group denotes the tree of the filter in it. -/
theorem Filter.denotes_content {filter : Filter} {segss : List (List Passage)}
    (h : filter.Shown suffix clock segss) (register : Register) :
    Denotes suffix clock (filter.nodeWithin clock)
      (rewrite Tier.all register (ofAlternatives segss)).1.dropBlanks := by
  obtain ⟨after, qs, hqs, hrun⟩ := Filter.exists_keyed hs h register
  rw [hrun]
  exact denotes_dropBlanks_joined hs hqs (filter.nodesWithin_ne_nil clock) .or

end Flat

/-! ## From the inside out -/

theorem ne_nil_of_shown {suffix : Text} {clock : Instant} {filter : Filter} :
    ∀ q, (∃ segss, q = ofAlternatives segss ∧ filter.Shown suffix clock segss) → q ≠ [] := by
  rintro _ ⟨segss, rfl, h⟩
  refine join_ne_nil ?_ fun q hq => ?_
  · intro he
    exact h.ne_nil (List.map_eq_nil_iff.1 he)
  · obtain ⟨segs, hsegs, rfl⟩ := List.mem_map.1 hq
    obtain ⟨alternative, halternative⟩ := h.exists_of_mem hsegs
    refine join_ne_nil halternative.ne_nil fun seg hseg => ?_
    obtain ⟨clause, hclause⟩ := halternative.exists_of_mem hseg
    exact hclause.ne_nil

/-- The key of a group shows the filter in the group, whatever blanks stand around it. -/
theorem Filter.Shown.shown_group {suffix : Text} (hs : Suffix.IsHex suffix) {clock : Instant} {filter : Filter}
    {segss : List (List Passage)} (h : filter.Shown suffix clock segss) {front back : Passage}
    (hfront : ∀ a ∈ front, a.isBlank = true) (hback : ∀ a ∈ back, a.isBlank = true) (number : Nat) (register : Register) :
    (Clause.group filter).Shown suffix clock (front ++
      [.key number .group (rewrite Tier.all register (ofAlternatives segss)).1.dropBlanks] ++ back) := by
  have hdrop : ∀ piece : Piece, piece.isBlank = false → dropBlanks (front ++ [piece] ++ back) = [piece] := by
    intro piece hpiece
    rw [dropBlanks_append, dropBlanks_append, dropBlanks_eq_nil hfront, dropBlanks_eq_nil hback]
    simp [dropBlanks, hpiece]
  refine ⟨plain_of_dropBlanks ?_, ?_, .inr ⟨number, .group, _, hdrop _ rfl⟩⟩
  · rw [hdrop _ rfl]
    intro c _ hm
    cases List.mem_singleton.1 hm
  · rw [hdrop _ rfl]
    exact (Filter.denotes_content hs h register).key hs number .group

theorem Passage.Renders.isBlank_of_nil {quotes : List Char} {p : Passage} (h : Renders quotes [] p) :
    ∀ a ∈ p, a.isBlank = true := by
  cases h with
  | nil hb => exact hb

theorem Passage.Renders.closes_of_nil {quotes : List Char} {p : Passage} (h : Renders quotes [] p) :
    p.Closes (· = p) :=
  closes_of_not_mem (fun hm => by cases h.isBlank_of_nil _ hm) (fun hm => by cases h.isBlank_of_nil _ hm)

/-- A group is shown in parentheses, with nothing but blanks around them. -/
theorem Passage.Renders.exists_parenthesized {quotes : List Char} {filter : Filter} {p : Passage}
    (h : Renders quotes (Clause.group filter).tokens p) :
    ∃ front inner back, p = front ++ parenthesized inner ++ back ∧ Renders quotes [] front ∧
      Renders quotes filter.tokens inner ∧ Renders quotes [] back := by
  have htokens : (Clause.group filter).tokens = [] ++ .sign ['('] :: (filter.tokens ++ .sign [')'] :: []) := rfl
  rw [htokens] at h
  obtain ⟨front, p, rfl, hfront, h⟩ := h.split
  obtain ⟨inner, back, rfl, hinner, hback⟩ := h.split
  exact ⟨front, inner, back, by simp [parenthesized], hfront, hinner, hback⟩

/-- Closing a group leaves its key between the blanks around it. -/
theorem Passage.Closes.enclose_between {quotes : List Char} {inner front back : Passage} {R : Passage → Prop}
    (h : inner.Closes R) (hne : ∀ q, R q → q ≠ []) (hfront : Renders quotes [] front) (hback : Renders quotes [] back) :
    (front ++ parenthesized inner ++ back).Closes fun q => ∃ number register content, R content ∧
      q = front ++ [.key number .group (rewrite Tier.all register content).1.dropBlanks] ++ back := by
  apply ((hfront.closes_of_nil.append (h.enclose hne)).append hback.closes_of_nil).imp
  rintro _ ⟨_, _, ⟨_, _, rfl, ⟨number, register, content, hcontent, rfl⟩, rfl⟩, rfl, rfl⟩
  exact ⟨number, register, content, hcontent, rfl⟩

section Groups
variable {suffix : Text}

mutual

/-- Closing the groups of a filter leaves a flat passage. -/
theorem Filter.closes (hs : Suffix.IsHex suffix) (clock : Instant) :
    ∀ (filter : Filter) {p : Passage}, Renders ['"', '\''] filter.tokens p →
    (∀ token ∈ filter.tokens, token.Free suffix) →
    p.Closes fun q => ∃ segss, q = ofAlternatives segss ∧ filter.Shown suffix clock segss
  | .last alternative, p, h, hf => by
    apply (alternative.closes hs clock h hf).imp
    rintro q ⟨segs, rfl, hsegs⟩
    exact ⟨[segs], rfl, .cons hsegs .nil⟩
  | .more alternative filter, p, h, hf => by
    unfold Filter.tokens at h hf
    obtain ⟨p₁, p₂, rfl, h₁, h₂⟩ := h.split
    have hfirst := alternative.closes hs clock h₁ fun token hm => hf token (List.mem_append_left _ hm)
    have hrest := filter.closes hs clock h₂ fun token hm => hf token (List.mem_append_right _ (List.mem_cons_of_mem _ hm))
    apply (hfirst.append_char (by simp) hrest).imp
    rintro _ ⟨_, _, ⟨segs, rfl, hsegs⟩, ⟨segss, rfl, hsegss⟩, rfl⟩
    refine ⟨segs :: segss, ?_, .cons hsegs hsegss⟩
    have hne : segss.map (join '&') ≠ [] := by
      intro he
      exact hsegss.ne_nil (List.map_eq_nil_iff.1 he)
    exact (join_cons hne (join '&' segs)).symm

/-- Closing the groups of an alternative leaves clauses that are joined by `&`. -/
theorem Alternative.closes (hs : Suffix.IsHex suffix) (clock : Instant) : ∀ (alternative : Alternative) {p : Passage},
    Renders ['"', '\''] alternative.tokens p →
    (∀ token ∈ alternative.tokens, token.Free suffix) →
    p.Closes fun q => ∃ segs, q = join '&' segs ∧ alternative.Shown suffix clock segs
  | .last clause, p, h, hf => by
    apply (clause.closes hs clock h hf).imp
    intro q hq
    exact ⟨[q], rfl, .cons hq .nil⟩
  | .more clause alternative, p, h, hf => by
    unfold Alternative.tokens at h hf
    obtain ⟨p₁, p₂, rfl, h₁, h₂⟩ := h.split
    have hfirst := clause.closes hs clock h₁ fun token hm => hf token (List.mem_append_left _ hm)
    have hrest := alternative.closes hs clock h₂ fun token hm =>
      hf token (List.mem_append_right _ (List.mem_cons_of_mem _ hm))
    apply (hfirst.append_char (by simp) hrest).imp
    rintro _ ⟨seg, _, hseg, ⟨segs, rfl, hsegs⟩, rfl⟩
    refine ⟨seg :: segs, ?_, .cons hseg hsegs⟩
    rw [join_cons hsegs.ne_nil]

/-- Closing the groups of a clause leaves a comparison, or the key of a group. -/
theorem Clause.closes (hs : Suffix.IsHex suffix) (clock : Instant) : ∀ (clause : Clause) {p : Passage},
    Renders ['"', '\''] clause.tokens p →
    (∀ token ∈ clause.tokens, token.Free suffix) →
    p.Closes (clause.Shown suffix clock)
  | .comparison field symbol value, p, h, hf => by
    have hvalid := (Clause.comparison field symbol value).valid_tokens
    obtain ⟨hdenotes, hplain⟩ := denotes_comparison hs h hvalid hf
    apply (closes_of_not_mem (hplain '(' (by simp)) (hplain ')' (by simp))).imp
    rintro q rfl
    exact ⟨hplain, hdenotes, .inl (exists_accepts_of_comparison h hvalid)⟩
  | .group filter, p, h, hf => by
    obtain ⟨front, inner, back, rfl, hfront, hinner, hback⟩ := h.exists_parenthesized
    have hclosed := filter.closes hs clock hinner fun token hm =>
      hf token (List.mem_cons_of_mem _ (List.mem_append_left _ hm))
    apply (hclosed.enclose_between ne_nil_of_shown hfront hback).imp
    rintro _ ⟨number, register, _, ⟨segss, rfl, hsegss⟩, rfl⟩
    exact hsegss.shown_group hs hfront.isBlank_of_nil hback.isBlank_of_nil number register

end

end Groups

/-! ## The whole text -/

namespace Passage

/-- No blank stands first or last in the passage. -/
structure Tight (p : Passage) : Prop where
  head : ∀ a ∈ p.head?, a.isBlank = false
  last : ∀ a ∈ p.getLast?, a.isBlank = false

/-- A part with no blank in front and a part with none behind make one with neither. -/
theorem tight_append {p q : Passage} (hp : ∀ a ∈ p.head?, a.isBlank = false) (hne : p ≠ [])
    (hq : ∀ a ∈ q.getLast?, a.isBlank = false) (hne' : q ≠ []) : Tight (p ++ q) where
  head := by rwa [List.head?_append_of_ne_nil _ hne]
  last := by rwa [List.getLast?_append_of_ne_nil _ hne']

theorem Tight.replace {cut : Cut Piece} (lifted : Lifted) (h : Tight (cut.before ++ cut.part ++ cut.after)) :
    Tight (cut.replace lifted) where
  head := by
    intro a ha
    unfold Cut.replace at ha
    cases hb : cut.before with
    | nil =>
      rw [hb] at ha
      obtain rfl := Option.some.inj ha
      rfl
    | cons b before =>
      rw [hb] at ha
      exact h.head a (by rw [hb]; exact ha)
  last := by
    intro a ha
    unfold Cut.replace at ha
    rcases List.eq_nil_or_concat cut.after with hb | ⟨after, b, hb⟩
    · rw [hb, List.getLast?_concat] at ha
      obtain rfl := Option.some.inj ha
      rfl
    · apply h.last a
      rw [hb, List.concat_eq_append, ← List.cons_append, ← List.append_assoc, List.getLast?_concat] at ha
      rwa [hb, List.concat_eq_append, ← List.append_assoc, List.getLast?_concat]

/-- Rewriting puts no blanks to the ends. -/
theorem Tight.rewrite {p : Passage} (h : Tight p) (tiers : List Tier) (register : Register) :
    Tight (rewrite tiers register p).1 := by
  induction tiers, register, p using rewrite_induction with
  | done register p => rwa [rewrite_nil]
  | pass tier tiers register p hp ih =>
    rw [rewrite_pass hp]
    exact ih h
  | lift tier tiers register p cut hp hg ih =>
    rw [rewrite_lift hp hg]
    exact ih (Tight.replace _ ((Tier.append_of_search? hp).1 ▸ h))
  | group tiers register p cut hp ihc ih =>
    rw [rewrite_group hp]
    exact ih (Tight.replace _ ((Tier.append_of_search? hp).1 ▸ h))

end Passage

theorem Token.Valid.tight {token : Token} (h : token.Valid) : token.text ≠ [] ∧ Tight (ofText token.text) := by
  cases token with
  | sign text =>
    have hblank : ∀ a ∈ ofText text, a.isBlank = false := by
      intro a ha
      obtain ⟨c, hc, rfl⟩ := List.mem_map.1 ha
      exact (h.2 c hc).1
    exact ⟨h.1, fun a ha => hblank a (List.mem_of_head? ha), fun a ha => hblank a (List.mem_of_getLast? ha)⟩
  | literal quote content =>
    have hquote : (Piece.char quote).isBlank = false := by
      rcases h.2 with rfl | ⟨rfl, -⟩ <;> rfl
    have htext : ofText (literal quote content).text = Tier.quotation quote (ofText content) := by
      simp [text, Tier.quotation, ofText]
    rw [htext]
    refine ⟨by simp [text], fun a ha => ?_, fun a ha => ?_⟩
    · obtain rfl := Option.some.inj (Option.mem_def.1 ha)
      exact hquote
    · rw [Tier.quotation, List.getLast?_concat] at ha
      obtain rfl := Option.some.inj (Option.mem_def.1 ha)
      exact hquote

theorem Text.Spaced.tight {parts : List Text} {text : Text} (h : Text.Spaced parts text)
    (hparts : ∀ part ∈ parts, part ≠ [] ∧ Tight (ofText part)) : text ≠ [] ∧ Tight (ofText text) := by
  induction h with
  | last part => exact hparts part List.mem_cons_self
  | @more part blanks parts text hb h ih =>
    obtain ⟨hne, hpart⟩ := hparts part List.mem_cons_self
    obtain ⟨hne', htext⟩ := ih fun other hm => hparts other (List.mem_cons_of_mem _ hm)
    have hlast : ∀ a ∈ (ofText (blanks ++ text)).getLast?, a.isBlank = false := by
      have hmap : ofText (blanks ++ text) = ofText blanks ++ ofText text := by simp [ofText]
      rw [hmap, List.getLast?_append_of_ne_nil _ (by simpa [ofText] using hne')]
      exact htext.last
    refine ⟨by simp [hne], ?_⟩
    have hmap : ofText (part ++ blanks ++ text) = ofText part ++ ofText (blanks ++ text) := by simp [ofText]
    rw [hmap]
    exact tight_append hpart.head (by simpa [ofText] using hne) hlast (by simp [ofText, hne'])

theorem Text.Spaced.infix_of_mem {parts : List Text} {text : Text} (h : Text.Spaced parts text) {part : Text}
    (hm : part ∈ parts) : part <:+: text := by
  induction h with
  | last other =>
    obtain rfl := List.mem_singleton.1 hm
    exact List.infix_rfl
  | @more other blanks parts text hb h ih =>
    rcases List.mem_cons.1 hm with rfl | hm
    · exact ⟨[], blanks ++ text, by simp⟩
    · exact (ih hm).trans (List.suffix_append _ _).isInfix

theorem Text.Spaced.free {tokens : List Token} {suffix text : Text} (h : Text.Spaced (tokens.map Token.text) text)
    (hf : ∀ n, ¬ Minter.key suffix n <:+: text) : ∀ token ∈ tokens, token.Free suffix :=
  fun _ hm n hn => hf n (hn.trans (h.infix_of_mem (List.mem_map_of_mem hm)))

/-- No key is written in the passage by hand, and it compiles to the tree at any number
of levels from the needed one on. -/
structure Passage.Stands (suffix : Text) (clock : Instant) (need : Nat) (node : Node) (p : Passage) : Prop where
  fresh : Fresh suffix p
  compile : ∀ levels, need ≤ levels → compileWithin suffix clock levels p = node

namespace Filter

/-- A written filter has no blanks at its ends. -/
theorem tight_text (filter : Filter) {text : Text} (htext : Text.Spaced (filter.tokens.map Token.text) text) :
    text ≠ [] ∧ Tight (ofText text) := by
  apply htext.tight
  intro part hm
  obtain ⟨token, htoken, rfl⟩ := List.mem_map.1 hm
  exact (filter.valid_tokens token htoken).tight

theorem exists_not_blank (filter : Filter) {text : Text}
    (htext : Text.Spaced (filter.tokens.map Token.text) text) : ∃ c, isBlank c = false ∧ c ∈ text := by
  obtain ⟨hne, htight⟩ := filter.tight_text htext
  obtain ⟨c, rest, rfl⟩ := List.exists_cons_of_ne_nil hne
  exact ⟨c, htight.head (.char c) rfl, List.mem_cons_self⟩

/-- Literals become keys first, then groups from the inside out; what is left of a filter
is flat. -/
theorem exists_shown (filter : Filter) {suffix : Text} (hs : Suffix.IsHex suffix) {p : Passage}
    (h : Renders [] filter.tokens p) (hf : ∀ token ∈ filter.tokens, token.Free suffix) (clock : Instant)
    (register : Register) : ∃ segss after, filter.Shown suffix clock segss ∧
      rewrite Tier.all register p = rewrite Tier.all after (ofAlternatives segss) := by
  obtain ⟨unquoted, q, hq, hliterals⟩ := h.rewrite_literals filter.valid_tokens Tier.structural register
  obtain ⟨ungrouped, _, ⟨segss, rfl, hsegss⟩, -, -, hgroups⟩ := filter.closes hs clock hq hf unquoted
  have hopen := hgroups (Tier.comparisons ++ [.conjunction]) [] [] (by simp)
  simp only [List.nil_append, List.append_nil] at hopen
  refine ⟨segss, ungrouped, hsegss, ?_⟩
  calc rewrite Tier.all register p = rewrite Tier.structural unquoted q := hliterals
    _ = rewrite Tier.structural ungrouped (ofAlternatives segss) := hopen
    _ = rewrite Tier.all ungrouped (ofAlternatives segss) := (rewrite_all_flat hsegss.plain ungrouped).symm

/-- The skeleton of a written filter denotes the tree of the filter. -/
theorem denotes_tokenize (filter : Filter) {suffix text : Text} (hs : Suffix.IsHex suffix)
    (htext : Text.Spaced (filter.tokens.map Token.text) text) (hf : ∀ n, ¬ Minter.key suffix n <:+: text)
    (clock : Instant) : Denotes suffix clock (filter.nodeWithin clock) (tokenize text).1 := by
  have hfree := htext.free hf
  have htight : Tight (tokenize text).1 := (filter.tight_text htext).2.rewrite Tier.all .new
  obtain ⟨segss, ungrouped, hsegss, hshown⟩ := filter.exists_shown hs (renders_of_spaced htext) hfree clock .new
  obtain ⟨after, qs, hqs, hflat⟩ := Filter.exists_keyed hs hsegss ungrouped
  have hrun : tokenize text = (join '|' qs, after) := hshown.trans hflat
  rw [hrun] at htight ⊢
  exact denotes_joined hs hqs (filter.nodesWithin_ne_nil clock) .or (trim_eq_self htight.head htight.last)

/-- With levels enough, the skeleton of a written filter stands for the tree that the filter
means. -/
theorem stands_tokenize (filter : Filter) {suffix text : Text} (hs : Suffix.IsHex suffix)
    (htext : Text.Spaced (filter.tokens.map Token.text) text) (hf : ∀ n, ¬ Minter.key suffix n <:+: text)
    (clock : Instant) :
    Stands suffix clock (filter.depth + 3) (filter.node clock) (tokenize text).1 :=
  have hdenotes := filter.denotes_tokenize hs htext hf clock
  ⟨hdenotes.fresh, fun levels hlevels =>
    (hdenotes.compile levels).trans (nodeWithin_eq (filter.nodeWithin_alternatives clock) levels hlevels)⟩

/-- A filter that is not too deep has the levels that it needs. -/
theorem levels_of_depth {filter : Filter} (h : filter.depth ≤ 254) : filter.depth + 3 ≤ defaultCeiling + 1 := by
  unfold defaultCeiling
  omega

/-- Tokenizing and compiling a written filter gives the tree that it means, however
blanks stand between its tokens, if no comparison is too deep to be compiled. -/
theorem tree_of_spaced (filter : Filter) {suffix text : Text} (hdepth : filter.depth ≤ 254)
    (htext : Text.Spaced (filter.tokens.map Token.text) text) (hs : Suffix.Admissible text suffix) (clock : Instant) :
    (Tokenized.ofText suffix text).tree clock = filter.node clock := by
  have hstands := filter.stands_tokenize hs.2.1 htext hs.not_infix_key clock
  rw [Tokenized.tree_of_known hs.2.1 ⟨(tokenize_sound text).2, hstands.fresh⟩]
  exact hstands.compile _ (levels_of_depth hdepth)

/-- `(a = 1|b > 2) & c='x & y'` is a conjunction of a disjunction and a comparison. -/
theorem tree_of_spaced_nested :
    let comparison (field : Operand) (symbol : Comparison) (value : Operand) : Alternative :=
      .last (.comparison field symbol (.operand value))
    let letter (c : Char) (hc : isWordChar c = true) : Operand :=
      .word [c] (List.cons_ne_nil c []) (List.forall_mem_singleton.2 hc)
    let inner : Filter := .more (comparison (letter 'a' rfl) .equal (letter '1' rfl))
      (.last (comparison (letter 'b' rfl) .greater (letter '2' rfl)))
    let filter : Filter := .last (.more (.group inner)
      (comparison (letter 'c' rfl) .equal (.single "x & y".toList (by decide))))
    let text := "(a = 1|b > 2) & c='x & y'".toList
    let clock : Instant := ⟨0, 0, by decide, by decide, by decide⟩
    filter.depth ≤ 254 ∧ Text.Spaced (filter.tokens.map Token.text) text ∧ Suffix.Admissible text "f0".toList ∧
      (Tokenized.ofText "f0".toList text).tree clock =
        .ofOperator .and (.list [
          .ofOperator .or (.list [.ofField "a" (.number (.integer 1)),
            .ofField "b" (.ofOperator .gt (.number (.integer 2)))]),
          .ofField "c" (.string "x & y")]) := by
  intro comparison letter inner filter text clock
  have hno : ∀ c ∈ ([] : Text), isBlank c = true := by simp
  have hspace : ∀ c ∈ [' '], isBlank c = true := List.forall_mem_singleton.2 rfl
  have hspaced : Text.Spaced (filter.tokens.map Token.text) text :=
    .more ['('] hno <| .more ['a'] hspace <| .more ['='] hspace <| .more ['1'] hno <| .more ['|'] hno <|
      .more ['b'] hspace <| .more ['>'] hspace <| .more ['2'] hno <| .more [')'] hspace <| .more ['&'] hspace <|
        .more ['c'] hno <| .more ['='] hno <| .last "'x & y'".toList
  have hdepth : filter.depth ≤ 254 := by decide
  have hfresh : Suffix.Admissible text "f0".toList := by decide
  exact ⟨hdepth, hspaced, hfresh, tree_of_spaced filter hdepth hspaced hfresh clock⟩

/-- Converting a written filter gives the tree that it means, since the suffix that is found for
its text may be drawn for it. -/
theorem convert_of_spaced (filter : Filter) {text : String} (hdepth : filter.depth ≤ 254)
    (htext : Text.Spaced (filter.tokens.map Token.text) text.toList) (clock : Instant) :
    convert clock text = filter.node clock := by
  have hs := Suffix.admissible_fresh text.toList
  obtain ⟨c, hc, hm⟩ := filter.exists_not_blank htext
  have hstands := filter.stands_tokenize hs.2.1 htext hs.not_infix_key clock
  rw [convert, convertWith_eq hs.2.1 hc hm hstands.fresh]
  exact hstands.compile _ (levels_of_depth hdepth)

end Filter

end FilterQuery
