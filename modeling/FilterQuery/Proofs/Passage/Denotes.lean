import FilterQuery.Proofs.Passage.Compile
import FilterQuery.Proofs.Passage.Form
import FilterQuery.Proofs.Passage.Render
/-!
# Passages that denote trees

A passage denotes the trees that it compiles to, one for each number of levels to go. Shown
operands, values and comparisons denote theirs, and joined keys what their connective makes
of the trees that the keys denote: `denotes_joined`.
-/

namespace FilterQuery

/-- No key is written in the token by hand. -/
def Token.Free (suffix : Text) (token : Token) : Prop := ∀ n, ¬ Minter.key suffix n <:+: token.text

namespace Passage

variable {suffix : Text} {clock : Instant} {node : Nat → Node} {p q : Passage}

/-- No key is written in the passage by hand, and at any number of levels to go it
compiles to the tree there. -/
structure Denotes (suffix : Text) (clock : Instant) (node : Nat → Node) (p : Passage) : Prop where
  fresh : Fresh suffix p
  compile : ∀ levels, compileWithin suffix clock levels p = node levels

/-- A passage that is no single key denotes the tree of its shape, one level deeper. -/
theorem denotes_of_shape (hf : Fresh suffix p) (hp : ¬ IsKey p)
    (h : ∀ levels, (shape clock p).node (spell suffix) (compileWithin suffix clock levels) = node levels) :
    Denotes suffix clock (.descend node) p := by
  refine ⟨hf, fun levels => ?_⟩
  cases levels with
  | zero => rfl
  | succ levels =>
    rw [compileWithin, unwrap_of_ne fun number tier value he => hp ⟨number, tier, value, he⟩, h]
    rfl

/-! ## Fresh passages -/

section Hex
variable (hs : Suffix.IsHex suffix)
include hs

theorem Fresh.key (h : Fresh suffix p) (number : Nat) (tier : Tier) : Fresh suffix [.key number tier p] := by
  intro n hn
  rw [expand_cons, expand_key, expand_nil, List.append_nil] at hn
  cases tier with
  | group =>
    rcases key_infix_append_cons hs rfl (key_infix_cons hs rfl hn) with hn | hn
    · exact h n hn
    · simp [Minter.key] at hn
  | _ => exact h n hn

theorem Fresh.append_char {c : Char} (hp : Fresh suffix p) (hq : Fresh suffix q) (hc : isKeyChar c = false) :
    Fresh suffix (p ++ .char c :: q) := by
  intro n hn
  rw [expand_append, expand_cons, expand_char, List.singleton_append] at hn
  exact (key_infix_append_cons hs hc hn).elim (hp n) (hq n)

omit hs in
theorem fresh_nil : Fresh suffix [] := by
  intro n hn
  simp [Minter.key] at hn

theorem Fresh.join {c : Char} (hc : isKeyChar c = false) {ps : List Passage} (h : ∀ p ∈ ps, Fresh suffix p) :
    Fresh suffix (join c ps) := by
  induction ps with
  | nil => exact fresh_nil
  | cons p ps ih =>
    have hp := h p List.mem_cons_self
    cases ps with
    | nil => exact hp
    | cons q ps => exact hp.append_char hs (ih fun r hr => h r (List.mem_cons_of_mem _ hr)) hc

theorem Fresh.append_word {word : Text} (hp : Fresh suffix p) (hq : Fresh suffix q) (hne : word ≠ [])
    (hw : ∀ c ∈ word, isKeyChar c = false) : Fresh suffix (p ++ ofText word ++ q) := by
  have hprepend : ∀ word : Text, (∀ c ∈ word, isKeyChar c = false) → Fresh suffix (ofText word ++ q) := by
    intro word hw
    induction word with
    | nil => exact hq
    | cons c word ih =>
      exact fresh_nil.append_char hs (ih fun d hd => hw d (List.mem_cons_of_mem _ hd)) (hw c List.mem_cons_self)
  obtain ⟨c, word, rfl⟩ := List.exists_cons_of_ne_nil hne
  rw [List.append_assoc]
  exact hp.append_char hs (hprepend word fun d hd => hw d (List.mem_cons_of_mem _ hd)) (hw c List.mem_cons_self)

/-- No key stands across a blank. -/
theorem Fresh.of_dropBlanks (h : Fresh suffix p.dropBlanks) : Fresh suffix p := by
  -- an induction over the passage alone fails, as a key may start before the part that is
  -- looked at; what stands there has lost its blanks already
  have hpart : ∀ (p u : Passage) (n : Nat), Minter.key suffix n <:+: expand (u ++ p) →
      Minter.key suffix n <:+: expand (u ++ dropBlanks p) := by
    intro p
    induction p with
    | nil => exact fun u n hn => hn
    | cons a p ih =>
      intro u n hn
      cases hb : a.isBlank with
      | false =>
        have hdrop : dropBlanks (a :: p) = a :: dropBlanks p := by simp [dropBlanks, hb]
        rw [List.append_cons] at hn
        rw [hdrop, List.append_cons]
        exact ih (u ++ [a]) n hn
      | true =>
        have hdrop : dropBlanks (a :: p) = dropBlanks p := by simp [dropBlanks, hb]
        rw [hdrop]
        cases a with
        | key => cases hb
        | char c =>
          have hc : isKeyChar c = false := isKeyChar_of_isBlank hb
          rw [expand_append, expand_cons, expand_char, List.singleton_append] at hn
          rw [expand_append]
          rcases key_infix_append_cons hs hc hn with hn | hn
          · exact hn.trans (List.prefix_append _ _).isInfix
          · exact (ih [] n hn).trans (List.suffix_append _ _).isInfix
  exact fun n hn => h n (hpart p [] n hn)

end Hex

/-! ## Operands -/

section Shown
variable (hs : Suffix.IsHex suffix)
include hs

/-- A key denotes what its passage does. -/
theorem Denotes.key (h : Denotes suffix clock node p) (number : Nat) (tier : Tier) :
    Denotes suffix clock node [.key number tier p] :=
  ⟨h.fresh.key hs number tier, fun levels => by rw [compileWithin_key, h.compile levels]⟩

omit hs in
theorem fresh_of_shows {quotes : List Char} {token : Token} (h : token.Shows quotes q)
    (hf : token.Free suffix) : Fresh suffix q := by
  intro n hn
  rw [h.expand] at hn
  exact hf n hn

/-- The literal of a quote denotes the string that it spells out. -/
theorem denotes_quotation {quote : Char} (hp : .char quote ∉ p) (hquote : quote = '\'' ∨ quote = '"')
    (hf : Fresh suffix (Tier.quotation quote p)) (number : Nat) :
    Denotes suffix clock (.descend fun _ => .string (String.ofList (spell suffix p)))
      [.key number (.literal quote) (Tier.quotation quote p)] := by
  have hkey : ¬ IsKey (Tier.quotation quote p) := not_isKey_of_mem List.mem_cons_self
  refine Denotes.key hs (denotes_of_shape hf hkey fun levels => ?_) number _
  rw [shape_quotation hp hquote, Shape.node]

/-- The literal of a quote around text denotes the string of the text. -/
theorem denotes_literal {quote : Char} {content : Text} (hc : quote ∉ content) (hquote : quote = '\'' ∨ quote = '"')
    (hf : Fresh suffix (Tier.quotation quote (ofText content))) (number : Nat) :
    Denotes suffix clock (.descend fun _ => .string (String.ofList content))
      [.key number (.literal quote) (Tier.quotation quote (ofText content))] := by
  have hno : .char quote ∉ ofText content := by simpa [ofText] using hc
  have hdenotes : Denotes suffix clock _ _ := denotes_quotation hs hno hquote hf number
  rwa [spell_ofText] at hdenotes

/-- A shown operand denotes its tree. -/
theorem denotes_operand {operand : Operand} (h : operand.token.Shows ['"', '\''] q)
    (hf : operand.token.Free suffix) :
    Denotes suffix clock (operand.nodeWithin clock) q ∧ Wordy q ∧ q ≠ [] := by
  have hfresh := fresh_of_shows h hf
  have hwordy : ∀ number tier value, Wordy [.key number tier value] := by
    intro number tier value c hc
    simp at hc
  cases operand with
  | word text hne hw =>
    obtain rfl : q = ofText text := h
    obtain ⟨c, text, rfl⟩ := List.exists_cons_of_ne_nil hne
    have hword : Wordy (ofText (c :: text)) := by
      intro d hd
      exact hw d (by simpa [ofText] using hd)
    have hkey : ¬ IsKey (ofText (c :: text)) := not_isKey_of_mem List.mem_cons_self
    refine ⟨denotes_of_shape hfresh hkey fun levels => ?_, hword, by simp [ofText]⟩
    rw [shape_word hword, Operand.node]
    split
    · rfl
    · cases clock.ofRelative? (c :: text) with
      | none => exact congrArg Node.ofScalar (spell_ofText suffix _)
      | some instant => rfl
  | single content hc =>
    rw [Operand.token, Token.Shows, if_pos (by simp)] at h
    obtain ⟨number, rfl⟩ := h
    exact ⟨denotes_literal hs hc (.inl rfl) (hfresh.value List.mem_cons_self) number, hwordy _ _ _, by simp⟩
  | double content hc =>
    rw [Operand.token, Token.Shows, if_pos (by simp)] at h
    obtain ⟨number, rfl⟩ := h
    exact ⟨denotes_literal hs hc.2 (.inr rfl) (hfresh.value List.mem_cons_self) number, hwordy _ _ _, by simp⟩

/-! ## Values -/

omit hs in
/-- Shown items of a list are joined by commas. -/
theorem exists_join_of_listed {items : List Operand} {rest : List Token} {qs : List Passage}
    (h : List.Forall₂ (fun token q => token.Shows ['"', '\''] q) (Operand.listed items ++ rest) qs) :
    ∃ ps qs', List.Forall₂ (fun item p => item.token.Shows ['"', '\''] p) items ps ∧
      List.Forall₂ (fun token q => token.Shows ['"', '\''] q) rest qs' ∧ qs.flatten = join ',' ps ++ qs'.flatten := by
  induction items using Operand.listed.induct generalizing qs with
  | case1 => exact ⟨[], qs, .nil, h, rfl⟩
  | case2 item =>
    cases h with
    | cons hitem hrest => exact ⟨_, _, .cons hitem .nil, hrest, rfl⟩
  | case3 item next items ih =>
    cases h with
    | cons hitem hrest =>
      cases hrest with
      | cons hcomma hrest =>
        obtain ⟨ps, qs', hps, hqs', hflatten⟩ := ih hrest
        have hne : ps ≠ [] := by
          rintro rfl
          cases hps
        refine ⟨_, qs', .cons hitem hps, hqs', ?_⟩
        rw [join_cons hne, List.flatten_cons, List.flatten_cons, hflatten, hcomma, List.append_assoc]
        rfl

omit hs in
theorem token_mem_listed {item : Operand} {items : List Operand} (h : item ∈ items) :
    item.token ∈ Operand.listed items := by
  induction items using Operand.listed.induct with
  | case1 => cases h
  | case2 other =>
    obtain rfl := List.mem_singleton.1 h
    exact List.mem_cons_self
  | case3 other next items ih =>
    rcases List.mem_cons.1 h with rfl | h
    · exact List.mem_cons_self
    · exact List.mem_cons_of_mem _ (List.mem_cons_of_mem _ (ih h))

section Items
variable {items : List Operand} {ps : List Passage}
  (h : List.Forall₂ (fun item p => Denotes suffix clock (item.nodeWithin clock) p ∧ Wordy p ∧ p ≠ []) items ps)
include h

omit hs in
theorem valued_join_items : Valued (join ',' ps) := by
  intro c hc
  rcases mem_join hc with he | ⟨p, hp, hm⟩
  · obtain rfl := Piece.char.inj he
    exact .inr (by simp)
  · obtain ⟨item, -, -, hwordy, -⟩ := exists_of_mem_forall₂ h hp
    exact .inl (hwordy c hm)

omit hs in
theorem valued_list : Valued (.char '[' :: join ',' ps ++ [.char ']']) := by
  intro c hc
  rw [List.cons_append, List.mem_cons, List.mem_append, List.mem_singleton] at hc
  rcases hc with he | hm | he
  · obtain rfl := Piece.char.inj he
    exact .inr (by simp)
  · exact valued_join_items h c hm
  · obtain rfl := Piece.char.inj he
    exact .inr (by simp)

/-- A list of shown operands denotes the list of their trees. -/
theorem denotes_list :
    Denotes suffix clock ((Value.list items).nodeWithin clock) (.char '[' :: join ',' ps ++ [.char ']']) := by
  have hitem : ∀ p ∈ ps, Fresh suffix p ∧ Wordy p ∧ p ≠ [] := by
    intro p hp
    obtain ⟨item, -, hdenotes, hwordy, hne⟩ := exists_of_mem_forall₂ h hp
    exact ⟨hdenotes.fresh, hwordy, hne⟩
  have hbracket : ∀ c, isWordChar c = false → c ≠ ',' → .char c ∉ join ',' ps := by
    intro c hc hne hm
    rcases mem_join hm with he | ⟨p, hp, hm⟩
    · exact hne (Piece.char.inj he)
    · exact (hitem p hp).2.1.not_mem hc hm
  have hfresh : Fresh suffix (.char '[' :: join ',' ps ++ [.char ']']) :=
    fresh_nil.append_char hs ((Fresh.join hs rfl fun p hp => (hitem p hp).1).append_char hs fresh_nil rfl) rfl
  have hkey : ¬ IsKey (.char '[' :: join ',' ps ++ [.char ']']) := not_isKey_of_mem List.mem_cons_self
  refine denotes_of_shape hfresh hkey fun levels => ?_
  have hparts : (if join ',' ps = [] then [] else (split ',' (join ',' ps)).map trim) = ps := by
    cases ps with
    | nil => rfl
    | cons p ps =>
      have hne : join ',' (p :: ps) ≠ [] := join_ne_nil (List.cons_ne_nil p ps) fun q hq => (hitem q hq).2.2
      have htrim : (p :: ps).map trim = p :: ps := by
        refine (List.map_congr_left fun q hq => ?_).trans (List.map_id _)
        exact trim_eq_self_of_forall (hitem q hq).2.1.valued.isBlank_of_mem
      rw [if_neg hne, split_join (List.cons_ne_nil p ps) fun q hq => (hitem q hq).2.1.not_mem rfl, htrim]
  have hnodes : items.map (·.nodeWithin clock levels) = ps.map (compileWithin suffix clock levels) :=
    map_eq_map_of_forall₂ (h.imp fun item p hp => (hp.1.compile levels).symm)
  rw [shape_bracketed (hbracket '[' rfl (by decide)) (hbracket ']' rfl (by decide)), hparts, Shape.node, hnodes]

end Items

/-- A shown value denotes its tree. -/
theorem denotes_value {value : Value} {qs : List Passage}
    (h : List.Forall₂ (fun token q => token.Shows ['"', '\''] q) value.tokens qs)
    (hf : ∀ token ∈ value.tokens, token.Free suffix) :
    Denotes suffix clock (value.nodeWithin clock) qs.flatten ∧ Valued qs.flatten := by
  cases value with
  | operand operand =>
    cases h with
    | cons hq hrest =>
      cases hrest
      obtain ⟨hdenotes, hwordy, -⟩ := denotes_operand hs hq (hf _ List.mem_cons_self)
      rw [List.flatten_singleton]
      exact ⟨hdenotes, hwordy.valued⟩
  | list items =>
    cases h with
    | @cons _ opening _ qs hopen h =>
      obtain ⟨ps, qs', hps, hclose, hflatten⟩ := exists_join_of_listed h
      cases hclose with
      | cons hclose hnil =>
        cases hnil
        have hitems : List.Forall₂ (fun item p => Denotes suffix clock (item.nodeWithin clock) p ∧ Wordy p ∧ p ≠ [])
            items ps := by
          have hfresh : ∀ item ∈ items, item.token.Free suffix := fun item hm =>
            hf _ (List.mem_cons_of_mem _ (List.mem_append_left _ (token_mem_listed hm)))
          exact ((List.forall₂_and_left _ _).2 ⟨hfresh, hps⟩).imp fun item p hp => denotes_operand hs hp.2 hp.1
        have hlist : (opening :: qs).flatten = .char '[' :: join ',' ps ++ [.char ']'] := by
          rw [List.flatten_cons, hflatten, hopen, hclose]
          rfl
        rw [hlist]
        exact ⟨denotes_list hs hitems, valued_list hitems⟩

/-! ## Comparisons -/

/-- A symbol between two operands denotes their comparison. -/
theorem denotes_compared (symbol : Comparison) {left right : Passage} {field value : Nat → Node}
    (hl : Denotes suffix clock field left) (hwordy : Wordy left) (hne : left ≠ [])
    (hr : Denotes suffix clock value right) (hvalued : Valued right) :
    Denotes suffix clock (symbol.nodeWithin field value) (left ++ ofText symbol.symbol ++ right) := by
  have hfresh := hl.fresh.append_word hs hr.fresh symbol.symbol_ne_nil symbol.isKeyChar_of_mem_symbol
  have hkey : ¬ IsKey (left ++ ofText symbol.symbol ++ right) := by
    obtain ⟨c, word, hword⟩ := List.exists_cons_of_ne_nil symbol.symbol_ne_nil
    apply not_isKey_of_mem (c := c)
    simp [hword, ofText]
  refine denotes_of_shape hfresh hkey fun levels => ?_
  rw [shape_compared hwordy hne hvalued.noSymbol, trim_eq_self_of_forall hwordy.valued.isBlank_of_mem,
    trim_eq_self_of_forall hvalued.isBlank_of_mem, Shape.node, hl.compile, hr.compile]

omit hs in
/-- Some tier of comparisons lifts a symbol between two operands. -/
theorem exists_accepts_of_symbol (symbol : Comparison) {left right : Passage} (hl : left ≠ []) (hr : right ≠ []) :
    Tier.comparisons.any (·.accepts ((left ++ ofText symbol.symbol ++ right).map Piece.view)) = true := by
  -- two symbols have no tier of their own, and the tier of a symbol within them lifts theirs
  have hwithin : ∃ other, .comparison other ∈ Tier.comparisons ∧ other.symbol <:+: symbol.symbol := by
    cases symbol with
    | strictNotEqual => exact ⟨.notEqual, by simp [Tier.comparisons], by decide⟩
    | strictEqual => exact ⟨.equal, by simp [Tier.comparisons], by decide⟩
    | _ => exact ⟨_, by simp [Tier.comparisons], List.infix_rfl⟩
  obtain ⟨other, hother, u, v, hsymbol⟩ := hwithin
  refine List.any_eq_true.2 ⟨_, hother, Tier.accepts_comparison_iff.2
    ⟨left ++ ofText u, ofText other.symbol, ofText v ++ right, ?_, ?_, ?_, ?_⟩⟩
  · simp [hl]
  · simp [hr]
  · simp [← hsymbol, ofText]
  · simp [ofText, Function.comp_def, Piece.view]

section Comparison
variable {field : Operand} {symbol : Comparison} {value : Value}
  (h : Renders ['"', '\''] (Clause.comparison field symbol value).tokens p)
  (hvalid : ∀ token ∈ (Clause.comparison field symbol value).tokens, token.Valid)
include h hvalid

/-- Without blanks, a shown comparison is its operands with the symbol between them. -/
theorem exists_operands (clock : Instant) (hf : ∀ token ∈ (Clause.comparison field symbol value).tokens,
    token.Free suffix) :
    ∃ left right, p.dropBlanks = left ++ ofText symbol.symbol ++ right ∧
      (Denotes suffix clock (field.nodeWithin clock) left ∧ Wordy left ∧ left ≠ []) ∧
      Denotes suffix clock (value.nodeWithin clock) right ∧ Valued right := by
  obtain ⟨qs, hqs, hp⟩ := h.dropBlanks hvalid
  unfold Clause.tokens at hqs hf
  cases hqs with
  | @cons _ left _ qs hleft hrest =>
    cases hrest with
    | @cons _ sign _ qs hsign hright =>
      obtain rfl : sign = ofText symbol.symbol := hsign
      refine ⟨left, qs.flatten, ?_, denotes_operand hs hleft (hf _ List.mem_cons_self), ?_⟩
      · rw [hp, List.flatten_cons, List.flatten_cons, List.append_assoc]
      · exact denotes_value hs hright fun token hm =>
          hf token (List.mem_cons_of_mem _ (List.mem_cons_of_mem _ hm))

/-- A shown comparison denotes its tree, and no tier but those of comparisons looks
into it. -/
theorem denotes_comparison (hf : ∀ token ∈ (Clause.comparison field symbol value).tokens,
    token.Free suffix) :
    Denotes suffix clock ((Clause.comparison field symbol value).nodeWithin clock) p.dropBlanks ∧ Plain p := by
  obtain ⟨left, right, hp, ⟨hl, hwordy, hne⟩, hr, hvalued⟩ := exists_operands hs h hvalid clock hf
  refine ⟨?_, plain_of_dropBlanks (hp ▸ plain_append symbol hwordy.valued.plain hvalued.plain)⟩
  rw [hp]
  exact denotes_compared hs symbol hl hwordy hne hr hvalued

omit hs in
/-- Some tier of comparisons lifts a shown comparison. -/
theorem exists_accepts_of_comparison :
    Tier.comparisons.any (·.accepts (p.map Piece.view)) = true := by
  unfold Clause.tokens at h hvalid
  cases h with
  | @cons b₁ left _ _ _ hb₁ hleft h =>
    have hne := (hleft.dropBlanks (hvalid _ List.mem_cons_self)).2
    cases h with
    | @cons b₂ sign right _ _ hb₂ hsign h =>
      obtain rfl : sign = ofText symbol.symbol := hsign
      have hright : right ≠ [] := h.ne_nil
        (fun token hm => hvalid token (List.mem_cons_of_mem _ (List.mem_cons_of_mem _ hm)))
        (by cases value <;> simp [Value.tokens])
      have hleft : b₁ ++ left ++ b₂ ≠ [] := by simp [hne]
      have haccepts := exists_accepts_of_symbol symbol hleft hright
      simpa using haccepts

end Comparison

/-! ## Joined keys -/

/-- Without blanks, the passage is one key, and it denotes the tree. -/
structure Keyed (suffix : Text) (clock : Instant) (node : Nat → Node) (q : Passage) : Prop where
  isKey : IsKey q.dropBlanks
  denotes : Denotes suffix clock node q.dropBlanks

omit hs in
theorem Keyed.trim (h : Keyed suffix clock node q) : q.trim = q.dropBlanks := by
  obtain ⟨number, tier, value, hq⟩ := h.isKey
  rw [trim_of_dropBlanks_eq hq, hq]

/-- Keys with a connective between them denote what it makes of the trees that the keys
denote. One key denotes its tree. -/
theorem denotes_joined {nodes : List (Nat → Node)} {qs : List Passage}
    (h : List.Forall₂ (Keyed suffix clock) nodes qs) (hne : nodes ≠ []) (connective : Connective)
    (htrim : (join connective.symbol qs).trim = join connective.symbol qs) :
    Denotes suffix clock (.joinedWithin connective nodes) (join connective.symbol qs) := by
  cases h with
  | nil => exact absurd rfl hne
  | @cons x q xs qs hq hqs =>
    cases hqs with
    | nil =>
      have hdenotes := hq.denotes
      rwa [← hq.trim, ← join_singleton connective.symbol q, htrim] at hdenotes
    | @cons y r xs qs hr hqs =>
      have hall : List.Forall₂ (Keyed suffix clock) (x :: y :: xs) (q :: r :: qs) := .cons hq (.cons hr hqs)
      have hlength : 2 ≤ (q :: r :: qs).length := by simp
      have hkeyed : ∀ p ∈ q :: r :: qs, ∃ x, Keyed suffix clock x p := by
        intro p hp
        obtain ⟨x, -, hx⟩ := exists_of_mem_forall₂ hall hp
        exact ⟨x, hx⟩
      have hfresh : Fresh suffix (join connective.symbol (q :: r :: qs)) :=
        Fresh.join hs (by cases connective <;> rfl) fun p hp =>
          (hkeyed p hp).elim fun x hx => hx.denotes.fresh.of_dropBlanks hs
      have hkey : ¬ IsKey (join connective.symbol (q :: r :: qs)) := by
        apply not_isKey_of_mem (c := connective.symbol)
        simp [join]
      refine denotes_of_shape hfresh hkey fun levels => ?_
      have hnodes : (x :: y :: xs).map (· levels) =
          ((q :: r :: qs).map Passage.trim).map (compileWithin suffix clock levels) := by
        rw [List.map_map]
        refine map_eq_map_of_forall₂ (hall.imp fun z p hp => ?_)
        rw [Function.comp_apply, hp.trim, hp.denotes.compile]
      rw [shape_join connective hlength fun p hp => (hkeyed p hp).elim fun z hz => hz.isKey, Shape.node, hnodes]

omit hs in
theorem Keyed.dropBlanks (h : Keyed suffix clock node q) : Keyed suffix clock node q.dropBlanks := by
  have hdrop : q.dropBlanks.dropBlanks = q.dropBlanks := by simp [Passage.dropBlanks]
  exact ⟨by rw [hdrop]; exact h.isKey, by rw [hdrop]; exact h.denotes⟩

/-- Joined keys without blanks denote the same tree. -/
theorem denotes_dropBlanks_joined {nodes : List (Nat → Node)} {qs : List Passage}
    (h : List.Forall₂ (Keyed suffix clock) nodes qs) (hne : nodes ≠ []) (connective : Connective) :
    Denotes suffix clock (.joinedWithin connective nodes) (join connective.symbol qs).dropBlanks := by
  have hblank : isBlank connective.symbol = false := by cases connective <;> rfl
  have hdrop : (join connective.symbol qs).dropBlanks = join connective.symbol (qs.map Passage.dropBlanks) :=
    dropBlanks_join hblank qs
  have hkeyed : List.Forall₂ (Keyed suffix clock) nodes (qs.map Passage.dropBlanks) :=
    List.forall₂_map_right_iff.2 (h.imp fun node q hq => hq.dropBlanks)
  have htrim : (join connective.symbol qs).dropBlanks.trim = (join connective.symbol qs).dropBlanks :=
    trim_eq_self_of_forall fun a ha => by simpa using (List.mem_filter.1 ha).2
  rw [hdrop] at htrim ⊢
  exact denotes_joined hs hkeyed hne connective htrim

end Shown

end Passage

end FilterQuery
