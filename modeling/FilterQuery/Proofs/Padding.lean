import FilterQuery.Proofs.Leak
import FilterQuery.Proofs.Passage.Pad
import FilterQuery.Proofs.Structure
/-!
# Blanks around filters

Blanks around a written filter have no influence on its tree, unless the filter is nothing
but a group. A clause that becomes a key takes them in, and alternatives are trimmed when
they are split. But the key of a group that stands alone is left between the blanks, where
it is no longer looked up but read as text: `Filter.convertWith_padded_iff`.
-/

namespace FilterQuery

open Passage

/-- The filter is nothing but a group. -/
def Filter.isGroup : Filter → Bool
  | .last (.last (.group _)) => true
  | _ => false

/-! ## The ends of filters -/

/-- The token neither begins nor ends with a sign of a comparison. -/
structure Token.Outer (token : Token) : Prop where
  headed : Headed (ofText token.text)
  tailed : Tailed (ofText token.text)

/-- The first and the last token may stand at the ends of a filter. -/
structure Token.Bounded (tokens : List Token) : Prop where
  first : ∃ token ∈ tokens.head?, token.Outer
  last : ∃ token ∈ tokens.getLast?, token.Outer

namespace Token

/-- A sign of other characters than those of comparisons. -/
theorem outer_sign {text : Text} (h : NoSymbol (ofText text)) : (sign text).Outer := by
  have hmem : ∀ a ∈ ofText text, NoSymbol [a] := by
    intro a ha symbol c hc hm
    exact h symbol c hc (List.mem_singleton.1 hm ▸ ha)
  exact ⟨fun a ha => hmem a (List.mem_of_head? ha), fun a ha => hmem a (List.mem_of_getLast? ha)⟩

theorem outer_literal {quote : Char} (h : NoSymbol [.char quote]) (content : Text) : (literal quote content).Outer := by
  have htext : ofText (literal quote content).text = .char quote :: ofText content ++ [.char quote] := by
    simp [text, ofText]
  constructor
  · intro a ha
    rw [htext] at ha
    obtain rfl := Option.some.inj ha
    exact h
  · intro a ha
    rw [htext, List.getLast?_concat] at ha
    obtain rfl := Option.some.inj ha
    exact h

theorem bounded_singleton {token : Token} (h : token.Outer) : Bounded [token] :=
  ⟨⟨token, rfl, h⟩, ⟨token, rfl, h⟩⟩

/-- Tokens that may stand at the ends do so around any others. -/
theorem Bounded.append {front back : List Token} (hf : Bounded front) (hb : Bounded back) (between : List Token) :
    Bounded (front ++ between ++ back) where
  first := by
    obtain ⟨token, hm, h⟩ := hf.first
    refine ⟨token, ?_, h⟩
    rw [List.append_assoc, List.head?_append, hm]
    rfl
  last := by
    obtain ⟨token, hm, h⟩ := hb.last
    refine ⟨token, ?_, h⟩
    rw [List.getLast?_append, hm]
    rfl

end Token

/-- No comparison has a delimiter in its symbol. -/
theorem noSymbol_delimiter {c : Char} (hc : c ∈ ['\'', '"', '(', ')', '[', ']']) : NoSymbol [.char c] := by
  intro symbol d hd hm
  obtain rfl := Piece.char.inj (List.mem_singleton.1 hm)
  have hsigns : symbol.symbol.all (fun d => ! ['\'', '"', '(', ')', '[', ']'].contains d) = true := by
    cases symbol <;> rfl
  have hsign := List.all_eq_true.1 hsigns d hd
  simp only [Bool.not_eq_true', List.contains_eq_mem, decide_eq_false_iff_not] at hsign
  exact hsign hc

theorem Token.bounded_delimiter {c : Char} (hc : c ∈ ['\'', '"', '(', ')', '[', ']']) : Bounded [.sign [c]] :=
  bounded_singleton (outer_sign (noSymbol_delimiter hc))

theorem Operand.outer_token (operand : Operand) : operand.token.Outer := by
  cases operand with
  | word text hne h =>
    have hwordy : Wordy (ofText text) := fun c hc => h c (by simpa [ofText] using hc)
    exact Token.outer_sign hwordy.valued.noSymbol
  | single content h => exact Token.outer_literal (noSymbol_delimiter (by simp)) content
  | double content h => exact Token.outer_literal (noSymbol_delimiter (by simp)) content

theorem Value.bounded_tokens (value : Value) : Token.Bounded value.tokens := by
  cases value with
  | operand operand => exact Token.bounded_singleton operand.outer_token
  | list items =>
    exact (Token.bounded_delimiter (by simp)).append (Token.bounded_delimiter (by simp)) (Operand.listed items)

mutual

theorem Filter.bounded_tokens : ∀ filter : Filter, Token.Bounded filter.tokens
  | .last alternative => alternative.bounded_tokens
  | .more alternative filter => by
    rw [Filter.tokens, List.append_cons]
    exact alternative.bounded_tokens.append filter.bounded_tokens [.sign ['|']]

theorem Alternative.bounded_tokens : ∀ alternative : Alternative, Token.Bounded alternative.tokens
  | .last clause => clause.bounded_tokens
  | .more clause alternative => by
    rw [Alternative.tokens, List.append_cons]
    exact clause.bounded_tokens.append alternative.bounded_tokens [.sign ['&']]

theorem Clause.bounded_tokens : ∀ clause : Clause, Token.Bounded clause.tokens
  | .comparison field symbol value =>
    (Token.bounded_singleton field.outer_token).append value.bounded_tokens [.sign symbol.symbol]
  | .group filter =>
    (Token.bounded_delimiter (by simp)).append (Token.bounded_delimiter (by simp)) filter.tokens

end

namespace Text

variable {parts : List Text} {text part : Text}

theorem Spaced.prefix_of_mem_head? (h : Spaced parts text) (hm : part ∈ parts.head?) : part <+: text := by
  cases h with
  | last =>
    obtain rfl := Option.some.inj hm
    exact List.prefix_rfl
  | @more first blanks _ rest =>
    obtain rfl := Option.some.inj hm
    rw [List.append_assoc]
    exact List.prefix_append _ _

theorem Spaced.suffix_of_mem_getLast? (h : Spaced parts text) (hm : part ∈ parts.getLast?) : part <:+ text := by
  induction h with
  | last =>
    obtain rfl := Option.some.inj hm
    exact List.suffix_rfl
  | @more first blanks parts rest hb h ih =>
    have hne : parts ≠ [] := by
      rintro rfl
      cases h
    rw [List.getLast?_cons_of_ne_nil hne] at hm
    exact (ih hm).trans (List.suffix_append _ _)

end Text

/-- A written filter neither begins nor ends with a sign of a comparison. -/
theorem Filter.headed_tailed (filter : Filter) {text : Text} (h : Text.Spaced (filter.tokens.map Token.text) text) :
    Headed (ofText text) ∧ Tailed (ofText text) := by
  have hne : ∀ token ∈ filter.tokens, ofText token.text ≠ [] := by
    intro token hm
    simpa [ofText] using (filter.valid_tokens token hm).tight.1
  obtain ⟨⟨first, hfirst, hheaded⟩, ⟨last, hlast, htailed⟩⟩ := filter.bounded_tokens
  constructor
  · have hmap : first.text ∈ (filter.tokens.map Token.text).head? := by
      rw [List.head?_map, hfirst]
      rfl
    obtain ⟨rest, rfl⟩ := h.prefix_of_mem_head? hmap
    have hsplit : ofText (first.text ++ rest) = ofText first.text ++ ofText rest := List.map_append
    rw [Headed, hsplit, List.head?_append_of_ne_nil _ (hne first (List.mem_of_head? hfirst))]
    exact hheaded.headed
  · have hmap : last.text ∈ (filter.tokens.map Token.text).getLast? := by
      rw [List.getLast?_map, hlast]
      rfl
    obtain ⟨rest, rfl⟩ := h.suffix_of_mem_getLast? hmap
    have hsplit : ofText (rest ++ last.text) = ofText rest ++ ofText last.text := List.map_append
    rw [Tailed, hsplit, List.getLast?_append_of_ne_nil _ (hne last (List.mem_of_getLast? hlast))]
    exact htailed.tailed

/-! ## What a filter is taken apart to -/

namespace Passage

/-- No tier lifts anything from a key that stands alone. -/
theorem rewrite_key (tiers : List Tier) (register : Register) (number : Nat) (tier : Tier) (value : Passage) :
    rewrite tiers register [.key number tier value] = ([.key number tier value], register) := by
  have hsettles : ∀ other : Tier, other.Settles [.key number tier value] := by
    intro other
    cases hclauses : other.liftsClauses with
    | true =>
      refine Tier.settles_of_not_accepts hclauses (fun a ha => ?_) (Tier.accepts_none other)
      obtain rfl := List.mem_singleton.1 ha
      cases other <;> rfl
    | false =>
      rcases Tier.eq_of_liftsClauses_eq_false hclauses with rfl | ⟨quote, rfl⟩
      · exact (Tier.passes_group (by simp)).settles
      · exact (Tier.passes_literal (by simp)).settles
  induction tiers with
  | nil => rw [rewrite_nil]
  | cons other tiers ih => rw [rewrite_pass (hsettles other).search?_eq_none, ih]

end Passage

/-- Blanks around the key of a group are left where they are. -/
theorem Passage.rewrite_padded_key {tiers : List Tier} (ht : tiers ⊆ Tier.all) (register : Register) (number : Nat)
    (value : Passage) {front back : Passage} (hfront : Blank front) (hback : Blank back) :
    rewrite tiers register (front ++ [.key number .group value] ++ back) =
      (front ++ [.key number .group value] ++ back, register) := by
  have hunlifted : Unlifted [.key number .group value] := by
    intro a ha
    obtain rfl := List.mem_singleton.1 ha
    rfl
  have hkey : ∀ a ∈ ([.key number .group value] : Passage), NoSymbol [a] := by
    intro a ha
    obtain rfl := List.mem_singleton.1 ha
    exact noSymbol_key _ _ _
  rw [← hunlifted.pad hback, rewrite_pad ht hfront hback (fun a ha => hkey a (List.mem_of_head? ha))
    (fun a ha => hkey a (List.mem_of_getLast? ha)), rewrite_key]

namespace Filter

variable {suffix text : Text} (hs : Suffix.IsHex suffix) (hf : ∀ n, ¬ Minter.key suffix n <:+: text)
  (clock : Instant)
include hs hf clock

/-- A group alone is taken apart to its key. -/
theorem tokenize_group (inner : Filter)
    (htext : Text.Spaced ((Filter.last (.last (.group inner))).tokens.map Token.text) text) :
    ∃ number value, (tokenize text).1 = [.key number .group value] := by
  have hfree := htext.free hf
  obtain ⟨unquoted, q, hq, hliterals⟩ :=
    (renders_of_spaced htext).rewrite_literals (Filter.valid_tokens _) Tier.structural .new
  obtain ⟨front, content, back, rfl, hfront, hcontent, hback⟩ := Renders.exists_parenthesized hq
  have hclosed := inner.closes hs clock hcontent fun token hm =>
    hfree token (List.mem_cons_of_mem _ (List.mem_append_left _ hm))
  obtain ⟨after, _, ⟨number, register, content, -, rfl⟩, -, -, hopen⟩ :=
    hclosed.enclose_between ne_nil_of_shown hfront hback unquoted
  generalize (rewrite Tier.all register content).1.dropBlanks = value at hopen
  have hopen := hopen (Tier.comparisons ++ [.conjunction]) [] [] (by simp)
  simp only [List.nil_append, List.append_nil] at hopen
  have hrun : tokenize text = (front ++ [.key number .group value] ++ back, after) := by
    calc tokenize text = rewrite Tier.structural unquoted _ := hliterals
      _ = rewrite Tier.structural after (front ++ [Piece.key number .group value] ++ back) := hopen
      _ = _ := rewrite_padded_key Tier.structural_subset after number value hfront.isBlank_of_nil hback.isBlank_of_nil
  -- the text has no blanks at its ends, so that none stand around the key
  have htight : Tight (tokenize text).1 := ((Filter.tight_text _ htext).2).rewrite Tier.all .new
  rw [hrun] at htight ⊢
  refine ⟨number, value, ?_⟩
  rw [← trim_eq_self htight.head htight.last]
  apply trim_of_dropBlanks_eq
  rw [Blank.append_dropBlanks hback.isBlank_of_nil, Blank.dropBlanks_append hfront.isBlank_of_nil]
  rfl

/-- A comparison alone becomes the key of a clause. -/
theorem tokenize_comparison (field : Operand) (symbol : Comparison) (value : Value)
    (htext : Text.Spaced ((Clause.comparison field symbol value).tokens.map Token.text) text) :
    ∃ number tier value, tier.liftsClauses = true ∧ (tokenize text).1 = [.key number tier value] := by
  have hvalid := (Clause.comparison field symbol value).valid_tokens
  obtain ⟨unquoted, q, hq, hliterals⟩ := (renders_of_spaced htext).rewrite_literals hvalid Tier.structural .new
  obtain ⟨-, hplain⟩ : Denotes suffix clock _ q.dropBlanks ∧ Plain q :=
    denotes_comparison hs hq hvalid (htext.free hf)
  obtain ⟨after, number, tier, htier, hrun⟩ :=
    rewrite_structural_clause hplain (exists_accepts_of_comparison hq hvalid) unquoted
  exact ⟨number, tier, _, htier, congrArg Prod.fst (hliterals.trans hrun)⟩

/-- Clauses that hold together become the key of a clause. -/
theorem tokenize_conjunction (clause : Clause) (alternative : Alternative)
    (htext : Text.Spaced ((Filter.last (.more clause alternative)).tokens.map Token.text) text) :
    ∃ number tier value, tier.liftsClauses = true ∧ (tokenize text).1 = [.key number tier value] := by
  obtain ⟨segss, ungrouped, hsegss, hshown⟩ :=
    exists_shown _ hs (renders_of_spaced htext) (htext.free hf) clock .new
  obtain ⟨segs, rfl, hsegs⟩ := exists_of_forall₂_singleton hsegss
  have hlength : 2 ≤ segs.length := by
    have hpos := List.length_pos_iff.2 alternative.clauses_ne_nil
    rw [← hsegs.length_eq, Alternative.clauses, List.length_cons]
    omega
  have hplain : ∀ segs' ∈ [segs], segs' ≠ [] ∧ ∀ seg ∈ segs', Plain seg := by
    intro segs' hm
    obtain rfl := List.mem_singleton.1 hm
    exact ⟨hsegs.ne_nil, hsegss.plain segs' List.mem_cons_self⟩
  obtain ⟨after, qs, hqs, hflat⟩ := rewrite_flat (List.cons_ne_nil _ _) hplain ungrouped
  obtain ⟨r, rfl, ⟨rs, -, hr⟩⟩ := exists_of_forall₂_singleton hqs
  rw [if_pos hlength] at hr
  obtain ⟨number, rfl⟩ := hr
  exact ⟨number, .conjunction, _, rfl, congrArg Prod.fst (hshown.trans hflat)⟩

/-- Alternatives, two or more, are left as keys with `|` between them. -/
theorem tokenize_alternatives (alternative : Alternative) (filter : Filter)
    (htext : Text.Spaced ((Filter.more alternative filter).tokens.map Token.text) text) :
    ∃ qs, 2 ≤ qs.length ∧ (∀ q ∈ qs, IsKey q.dropBlanks) ∧
      (tokenize text).1 = join Connective.or.symbol qs := by
  obtain ⟨segss, ungrouped, hsegss, hshown⟩ :=
    exists_shown _ hs (renders_of_spaced htext) (htext.free hf) clock .new
  obtain ⟨after, qs, hqs, hflat⟩ := exists_keyed hs hsegss ungrouped
  refine ⟨qs, ?_, fun q hm => ?_, congrArg Prod.fst (hshown.trans hflat)⟩
  · have hpos := List.length_pos_iff.2 (filter.nodesWithin_ne_nil clock)
    rw [← hqs.length_eq, Filter.nodesWithin, List.length_cons]
    omega
  · obtain ⟨other, -, hkeyed⟩ := exists_of_mem_forall₂ hqs hm
    exact hkeyed.isKey

end Filter

/-! ## Leaks -/

/-- A written filter does not leak, however deep its comparisons stand: a suffix longer than
the text of its tree would show in that text. -/
theorem Filter.not_leaks (filter : Filter) {text : Text} (htext : Text.Spaced (filter.tokens.map Token.text) text)
    (clock : Instant) (levels : Nat) : leaks clock levels (tokenize text).1 = false := by
  by_contra hleak
  let written := Json.write Json.compactStyle 0 ((filter.node clock).toJson .plain)
  let suffix : Text := List.replicate (text.length + written.length) 'a'
  have hs : Suffix.IsHex suffix := by
    rw [Suffix.IsHex, List.all_eq_true]
    intro c hc
    rw [List.eq_of_mem_replicate hc]
    rfl
  have hlong : ∀ n, text.length + written.length < (Minter.key suffix n).length := by
    intro n
    simp only [Minter.key, List.cons_append, List.length_cons, List.length_append, suffix, List.length_replicate]
    omega
  have hstands := filter.stands_tokenize hs htext (fun n hn => by have := hn.length_le; have := hlong n; omega) clock
  have hdeep := leaks_mono (eq_true_of_ne_false hleak) (Nat.le_max_left levels (filter.depth + 3))
  obtain ⟨hsound, hwithin⟩ := tokenize_sound text
  obtain ⟨lifted, -, hshows⟩ := shows_of_leaks hs hsound.layered ⟨hwithin, hstands.fresh⟩ hdeep
  rw [hstands.compile _ (Nat.le_max_right ..)] at hshows
  have hlength : _ ≤ written.length := (hshows 0).length_le
  have := hlong lifted.number
  omega

/-! ## Blanks that are left -/

namespace Passage

variable {front back : Passage}

theorem exists_pad (hfront : Blank front) (hback : Blank back) (p : Passage) :
    ∃ front' back', Blank front' ∧ Blank back' ∧ pad front back p = front' ++ p ++ back' := by
  have hnil : Blank [] := by simp [Blank]
  unfold pad padFront padBack
  split <;> split
  · exact ⟨[], [], hnil, hnil, by simp⟩
  · exact ⟨front, [], hfront, hnil, by simp⟩
  · exact ⟨[], back, hnil, hback, by simp⟩
  · exact ⟨front, back, hfront, hback, by simp⟩

theorem pad_nil (p : Passage) : pad [] [] p = p := by
  simp [pad, padFront, padBack]

/-- The key of a clause has taken in all blanks around it. -/
theorem pad_clause {tier : Tier} (ht : tier.liftsClauses = true) (number : Nat) (value : Passage) :
    pad front back [.key number tier value] = [.key number tier value] := by
  simp [pad, padFront, padBack, Piece.isClause, ht]

/-- The key of a group takes in none. -/
theorem pad_group (hback : Blank back) (number : Nat) (value : Passage) :
    pad front back [.key number .group value] = front ++ [.key number .group value] ++ back := by
  apply Unlifted.pad _ hback
  intro a ha
  obtain rfl := List.mem_singleton.1 ha
  rfl

/-- Blanks part what keys stand in. -/
theorem Fresh.blanks_append {suffix : Text} (hs : Suffix.IsHex suffix) {p : Passage} (hp : Fresh suffix p)
    (hfront : Blank front) : Fresh suffix (front ++ p) := by
  induction front with
  | nil => exact hp
  | cons a front ih =>
    have ha := hfront a List.mem_cons_self
    cases a with
    | key => cases ha
    | char c =>
      exact fresh_nil.append_char hs (ih fun b hb => hfront b (List.mem_cons_of_mem _ hb)) (isKeyChar_of_isBlank ha)

theorem Fresh.append_blanks {suffix : Text} (hs : Suffix.IsHex suffix) {p : Passage} (hp : Fresh suffix p)
    (hback : Blank back) : Fresh suffix (p ++ back) := by
  cases back with
  | nil => rwa [List.append_nil]
  | cons a back =>
    have ha := hback a List.mem_cons_self
    have hrest : Fresh suffix back := by
      have hblanks := fresh_nil.blanks_append hs fun b hb => hback b (List.mem_cons_of_mem _ hb)
      rwa [List.append_nil] at hblanks
    cases a with
    | key => cases ha
    | char c => exact hp.append_char hs hrest (isKeyChar_of_isBlank ha)

theorem trim_blanks_append (hfront : Blank front) (p : Passage) : trim (front ++ p) = trim p := by
  rw [trim, List.dropWhile_append_of_pos hfront, trim]

theorem trim_append_blanks (hback : Blank back) (p : Passage) : trim (p ++ back) = trim p := by
  rw [trim, reverse_dropWhile_append hback, trim]

/-- Blanks around keys with a connective between them are trimmed away. -/
theorem shape_padded_join (connective : Connective) {qs : List Passage} (hlength : 2 ≤ qs.length)
    (hkeys : ∀ q ∈ qs, IsKey q.dropBlanks) (hfront : Blank front) (hback : Blank back) (clock : Instant) :
    shape clock (front ++ join connective.symbol qs ++ back) = shape clock (join connective.symbol qs) := by
  obtain ⟨first, rest, rfl⟩ := List.exists_cons_of_ne_nil (List.ne_nil_of_length_pos (by omega : 0 < qs.length))
  obtain ⟨init, last, rfl⟩ := (List.eq_nil_or_concat rest).resolve_left (by rintro rfl; simp at hlength)
  rw [List.concat_eq_append] at hlength hkeys ⊢
  have hkeys' : ∀ q ∈ (front ++ first) :: (init ++ [last ++ back]), IsKey q.dropBlanks := by
    intro q hm
    rcases List.mem_cons.1 hm with rfl | hm
    · rw [hfront.dropBlanks_append]
      exact hkeys first List.mem_cons_self
    · rcases List.mem_append.1 hm with hm | hm
      · exact hkeys q (List.mem_cons_of_mem _ (List.mem_append_left _ hm))
      · obtain rfl := List.mem_singleton.1 hm
        rw [hback.append_dropBlanks]
        exact hkeys last (by simp)
  rw [append_join, ← List.cons_append, join_append, List.cons_append, shape_join connective (by simp) hkeys',
    shape_join connective hlength hkeys]
  simp only [List.map_cons, List.map_append, List.map_nil, trim_blanks_append hfront, trim_append_blanks hback]

/-- Keys with a connective between them compile to the same tree with blanks around
them. -/
theorem compileWithin_padded_join (connective : Connective) {qs : List Passage} (hlength : 2 ≤ qs.length)
    (hkeys : ∀ q ∈ qs, IsKey q.dropBlanks) (hfront : Blank front) (hback : Blank back) (suffix : Text)
    (clock : Instant) (levels : Nat) :
    compileWithin suffix clock levels (front ++ join connective.symbol qs ++ back) =
      compileWithin suffix clock levels (join connective.symbol qs) := by
  have hno : ∀ q ∈ qs, .char connective.symbol ∉ q := by
    intro q hm hc
    have hblank := (hkeys q hm).isBlank_of_mem hc
    cases connective <;> cases hblank
  have hmem := (mem_join_self_iff hno).2 hlength
  have hjoin : ¬ IsKey (join connective.symbol qs) := not_isKey_of_mem hmem
  have hpadded : ¬ IsKey (front ++ join connective.symbol qs ++ back) :=
    not_isKey_of_mem (List.mem_append_left _ (List.mem_append_right _ hmem))
  cases levels with
  | zero => rfl
  | succ levels =>
    rw [compileWithin, compileWithin, unwrap_of_ne fun number tier value he => hpadded ⟨number, tier, value, he⟩,
      unwrap_of_ne fun number tier value he => hjoin ⟨number, tier, value, he⟩,
      shape_padded_join connective hlength hkeys hfront hback]

/-- A key between blanks is read as text. -/
theorem exists_string_padded_key (hfront : Blank front) (hback : Blank back) (hne : ¬ (front = [] ∧ back = []))
    (number : Nat) (tier : Tier) (value : Passage) (suffix : Text) (clock : Instant) (levels : Nat) :
    ∃ string, compileWithin suffix clock (levels + 1) (front ++ [.key number tier value] ++ back) =
      .string string := by
  have hblank : ∀ c, .char c ∈ front ++ [.key number tier value] ++ back → isBlank c = true := by
    intro c hc
    have hc' : .char c ∈ front ∨ .char c ∈ back := by simpa using hc
    exact hc'.elim (hfront _) (hback _)
  have hlinked : Linked .and (front ++ [.key number tier value] ++ back) := fun c hc => .inl (hblank c hc)
  have hkey : ¬ IsKey (front ++ [.key number tier value] ++ back) := by
    rintro ⟨other, tier', value', he⟩
    have hlength := congrArg List.length he
    simp only [List.length_append, List.length_singleton] at hlength
    exact hne ⟨List.length_eq_zero_iff.1 (by omega), List.length_eq_zero_iff.1 (by omega)⟩
  have hnone : text? (front ++ [.key number tier value] ++ back) = none := by
    cases htext : text? (front ++ [.key number tier value] ++ back) with
    | none => rfl
    | some text =>
      have hm : .key number tier value ∈ ofText text := eq_ofText_of_text? htext ▸ by simp
      simp [ofText] at hm
  have hshape : shape clock (front ++ [.key number tier value] ++ back) =
      .scalar (front ++ [.key number tier value] ++ back) := by
    have hquoted := quoted?_eq_none fun a ha =>
      ⟨hlinked.head rfl (by decide) a ha, hlinked.head rfl (by decide) a ha⟩
    have hlist := list?_eq_none (hlinked.head rfl (by decide))
    have hclauses := clauses?_eq_none fun connective hm => by
      have hc := hblank connective.symbol hm
      cases connective <;> cases hc
    rw [shape, hnone, hquoted, hlist, hlinked.noSymbol.comparison?_eq_none, hclauses]
    rfl
  rw [compileWithin, unwrap_of_ne fun number tier value he => hkey ⟨number, tier, value, he⟩, hshape, Shape.node,
    Node.ofScalar_eq_string (underscore_mem_spell hnone suffix)]
  exact ⟨_, rfl⟩

/-- What is a string at one level is so at all. -/
theorem compileWithin_eq_string {suffix : Text} {clock : Instant} {levels : Nat} {p : Passage} {string : String}
    (h : compileWithin suffix clock (levels + 1) p = .string string) (more : Nat) :
    compileWithin suffix clock (more + 1) p = .string string := by
  rw [compileWithin] at h ⊢
  cases hp : shape clock (unwrap p) with
  | quoted content => rwa [hp] at h
  | scalar text => rwa [hp] at h
  | _ =>
    rw [hp] at h
    cases h

end Passage

/-! ## Converting with blanks around -/

namespace Filter

/-- A written filter that is no group is compiled alike with blanks around it. -/
theorem compileWithin_pad (filter : Filter) {suffix text : Text} (hs : Suffix.IsHex suffix)
    (hf : ∀ n, ¬ Minter.key suffix n <:+: text) (hgroup : filter.isGroup = false)
    (htext : Text.Spaced (filter.tokens.map Token.text) text) {front back : Passage} (hfront : Blank front)
    (hback : Blank back) (clock : Instant) (levels : Nat) :
    compileWithin suffix clock levels (pad front back (tokenize text).1) =
      compileWithin suffix clock levels (tokenize text).1 := by
  have hclause : (∃ number tier value, tier.liftsClauses = true ∧ (tokenize text).1 = [.key number tier value]) →
      compileWithin suffix clock levels (pad front back (tokenize text).1) =
        compileWithin suffix clock levels (tokenize text).1 := by
    rintro ⟨number, tier, value, ht, he⟩
    rw [he, pad_clause ht]
  match filter with
  | .last (.last (.comparison field symbol value)) =>
    exact hclause (tokenize_comparison hs hf clock field symbol value htext)
  | .last (.last (.group inner)) => cases hgroup
  | .last (.more clause alternative) => exact hclause (tokenize_conjunction hs hf clock clause alternative htext)
  | .more alternative filter =>
    obtain ⟨qs, hlength, hkeys, he⟩ := tokenize_alternatives hs hf clock alternative filter htext
    obtain ⟨front', back', hfront', hback', hpad⟩ := exists_pad hfront hback (tokenize text).1
    rw [hpad, he, compileWithin_padded_join .or hlength hkeys hfront' hback']

/-- A written filter that is nothing but a group is read as text when there are blanks
around it, and never without. -/
theorem compileWithin_pad_group (filter : Filter) {suffix text : Text} (hs : Suffix.IsHex suffix)
    (hf : ∀ n, ¬ Minter.key suffix n <:+: text) (hgroup : filter.isGroup = true)
    (htext : Text.Spaced (filter.tokens.map Token.text) text) {front back : Passage} (hfront : Blank front)
    (hback : Blank back) (hne : ¬ (front = [] ∧ back = [])) (clock : Instant) (levels : Nat) :
    compileWithin suffix clock (levels + 1) (pad front back (tokenize text).1) ≠
      compileWithin suffix clock (levels + 1) (tokenize text).1 := by
  intro he
  match filter with
  | .last (.last (.group inner)) =>
    obtain ⟨number, value, hkey⟩ := tokenize_group hs hf clock inner htext
    obtain ⟨string, hstring⟩ := exists_string_padded_key hfront hback hne number .group value suffix clock levels
    rw [hkey, pad_group hback, hstring, ← hkey] at he
    -- the tree would be a string at every level, and so at one where it is the tree of the filter
    have hdeep := compileWithin_eq_string he.symm ((Filter.last (.last (.group inner))).depth + 3)
    rw [(stands_tokenize _ hs htext hf clock).compile _ (Nat.le_succ _)] at hdeep
    have hclause : (node clock (.last (.last (.group inner)))).isClause = true :=
      Node.isClause_joined .or (isClause_nodes clock _)
    rw [hdeep] at hclause
    cases hclause

/-- Blanks around a written filter change nothing, whatever the suffixes, iff there are none
or the filter is more than a group in parentheses. -/
theorem convertWith_padded_iff (filter : Filter) {text front back s t : Text}
    (htext : Text.Spaced (filter.tokens.map Token.text) text) (hfront : ∀ c ∈ front, isBlank c = true)
    (hback : ∀ c ∈ back, isBlank c = true) (hs : Suffix.Admissible (front ++ text ++ back) s)
    (ht : Suffix.Admissible text t) (clock : Instant) :
    convertWith s clock (front ++ text ++ back) = convertWith t clock text ↔
      filter.isGroup = false ∨ front = [] ∧ back = [] := by
  have hfresh : ∀ n, ¬ Minter.key s n <:+: text := fun n hn => hs.not_infix_key n (hn.trans ⟨front, back, rfl⟩)
  obtain ⟨hhead, htail⟩ := filter.headed_tailed htext
  have hpad := tokenize_pad hfront hback hhead htail
  obtain ⟨c, hc, hm⟩ := filter.exists_not_blank htext
  have hpadded : convertWith s clock (front ++ text ++ back) =
      compileWithin s clock (defaultCeiling + 1) (pad (ofText front) (ofText back) (tokenize text).1) := by
    have hstands := filter.stands_tokenize hs.2.1 htext hfresh clock
    obtain ⟨front', back', hfront', hback', he⟩ :=
      exists_pad (blank_ofText hfront) (blank_ofText hback) (tokenize text).1
    have hf : Fresh s (tokenize (front ++ text ++ back)).1 := by
      rw [hpad, he]
      exact (hstands.fresh.blanks_append hs.2.1 hfront').append_blanks hs.2.1 hback'
    rw [convertWith_eq hs.2.1 hc (by simp [hm]) hf, hpad]
  have halone : convertWith t clock text = compileWithin s clock (defaultCeiling + 1) (tokenize text).1 := by
    have hstands := filter.stands_tokenize ht.2.1 htext ht.not_infix_key clock
    rw [convertWith_eq ht.2.1 hc hm hstands.fresh]
    exact compileWithin_eq_of_not_leaks (filter.not_leaks htext clock _) t s
  rw [hpadded, halone]
  cases hgroup : filter.isGroup with
  | false =>
    simp only [true_or, iff_true]
    exact filter.compileWithin_pad hs.2.1 hfresh hgroup htext (blank_ofText hfront) (blank_ofText hback) clock _
  | true =>
    rw [or_iff_right (by decide)]
    constructor
    · intro he
      by_contra hne
      have hne' : ¬ (ofText front = [] ∧ ofText back = []) := by simpa [ofText] using hne
      exact filter.compileWithin_pad_group hs.2.1 hfresh hgroup htext (blank_ofText hfront) (blank_ofText hback)
        hne' clock _ he
    · rintro ⟨rfl, rfl⟩
      exact congrArg _ (pad_nil _)

/-- A blank in front of `(a=1)` stays in front of the key of the group and changes the tree;
in front of `a=1` it changes nothing. -/
theorem convertWith_padded_group :
    let letter (c : Char) (hc : isWordChar c = true) : Operand :=
      .word [c] (List.cons_ne_nil c []) (List.forall_mem_singleton.2 hc)
    let comparison : Filter :=
      .last (.last (.comparison (letter 'a' rfl) .equal (.operand (letter '1' rfl))))
    let group : Filter := .last (.last (.group comparison))
    let clock : Instant := ⟨0, 0, by decide, by decide, by decide⟩
    let suffix := "f0".toList
    Text.Spaced (comparison.tokens.map Token.text) "a=1".toList ∧
      Text.Spaced (group.tokens.map Token.text) "(a=1)".toList ∧
      Suffix.Admissible " a=1".toList suffix ∧ Suffix.Admissible " (a=1)".toList suffix ∧
      Suffix.Admissible "a=1".toList suffix ∧ Suffix.Admissible "(a=1)".toList suffix ∧
      convertWith suffix clock " a=1".toList = convertWith suffix clock "a=1".toList ∧
      convertWith suffix clock " (a=1)".toList ≠ convertWith suffix clock "(a=1)".toList ∧
      (Tokenized.ofText suffix " (a=1)".toList).skeleton = " x1_f0".toList := by
  intro letter comparison group clock suffix
  have hno : ∀ c ∈ ([] : Text), isBlank c = true := by simp
  have hspace : ∀ c ∈ [' '], isBlank c = true := List.forall_mem_singleton.2 rfl
  have hcomparison : Text.Spaced (comparison.tokens.map Token.text) "a=1".toList :=
    .more ['a'] hno <| .more ['='] hno <| .last ['1']
  have hgroup : Text.Spaced (group.tokens.map Token.text) "(a=1)".toList :=
    .more ['('] hno <| .more ['a'] hno <| .more ['='] hno <| .more ['1'] hno <| .last [')']
  have hs : Suffix.Admissible ([' '] ++ "a=1".toList ++ []) suffix := by decide
  have hs' : Suffix.Admissible ([' '] ++ "(a=1)".toList ++ []) suffix := by decide
  have ht : Suffix.Admissible "a=1".toList suffix := by decide
  have ht' : Suffix.Admissible "(a=1)".toList suffix := by decide
  have hsame := (convertWith_padded_iff comparison hcomparison hspace hno hs ht clock).2 (.inl rfl)
  have hdiffer := (convertWith_padded_iff group hgroup hspace hno hs' ht' clock).not.2 (by decide)
  exact ⟨hcomparison, hgroup, hs, hs', ht, ht', hsame, hdiffer, by decide⟩

end Filter

end FilterQuery
