import FilterQuery.Proofs.Grammar
import FilterQuery.Proofs.Passage.Flat
import FilterQuery.Proofs.Passage.Shape
/-!
# Shapes of well-formed passages

Literals, lists, comparisons and joined clauses have the shape that they are written in:
`shape_quotation`, `shape_bracketed`, `shape_compared` and `shape_join`.
-/

namespace FilterQuery

theorem infix_of_infix_append {α : Type} {w l m r : List α} (hw : w ≠ []) (hl : ∀ a ∈ w, a ∉ l)
    (hr : ∀ a ∈ w, a ∉ r) (h : w <:+: l ++ m ++ r) : w <:+: m := by
  have hno : ∀ {u v : List α}, u <+: v ∨ u <:+ v → u ≠ [] → ∃ a ∈ u, a ∈ v := by
    intro u v huv hu
    obtain ⟨a, u, rfl⟩ := List.exists_cons_of_ne_nil hu
    exact ⟨a, List.mem_cons_self, huv.elim (·.subset List.mem_cons_self) (·.subset List.mem_cons_self)⟩
  obtain ⟨b, hb⟩ := List.exists_mem_of_ne_nil w hw
  rcases List.infix_append_iff_ne_nil.1 h with h | h | ⟨w₁, w₂, -, hne, rfl, -, hp⟩
  · rcases List.infix_append_iff_ne_nil.1 h with h | h | ⟨w₁, w₂, hne, -, rfl, hp, -⟩
    · exact absurd (h.subset hb) (hl b hb)
    · exact h
    · obtain ⟨a, ha, ha'⟩ := hno (.inr hp) hne
      exact absurd ha' (hl a (List.mem_append_left _ ha))
  · exact absurd (h.subset hb) (hr b hb)
  · obtain ⟨a, ha, ha'⟩ := hno (.inl hp) hne
    exact absurd ha' (hr a (List.mem_append_right _ ha))

/-- What is dropped from the end is dropped behind any list. -/
theorem reverse_dropWhile_append {α : Type} {p : α → Bool} {back : List α} (h : ∀ a ∈ back, p a = true) (l : List α) :
    ((l ++ back).dropWhile p).reverse.dropWhile p = (l.dropWhile p).reverse.dropWhile p := by
  have hreverse : ∀ a ∈ back.reverse, p a = true := fun a ha => h a (List.mem_reverse.1 ha)
  rw [List.dropWhile_append]
  cases l.dropWhile p with
  | nil => rw [List.isEmpty_nil, if_pos rfl, List.dropWhile_eq_nil_iff.2 h]
  | cons a l =>
    rw [List.isEmpty_cons, if_neg Bool.false_ne_true, List.reverse_append, List.dropWhile_append_of_pos hreverse]

/-- The first comparison whose symbol occurs in a symbol is that of the symbol. -/
theorem Comparison.find?_infix (symbol : Comparison) :
    all.find? (fun c => decide (c.symbol <:+: symbol.symbol)) = some symbol := by
  cases symbol <;> decide

namespace Passage

variable {p q l r : Passage}

/-! ## Words -/

/-- All text in the passage might stand in a word. -/
def Wordy (p : Passage) : Prop := ∀ c, .char c ∈ p → isWordChar c = true

theorem Wordy.not_mem (h : Wordy p) {c : Char} (hc : isWordChar c = false) : .char c ∉ p := by
  intro hm
  rw [h c hm] at hc
  cases hc

theorem Wordy.head (h : Wordy p) :
    ∀ a ∈ p.head?, a.view ≠ some '\'' ∧ a.view ≠ some '"' ∧ a.view ≠ some '[' := by
  intro a ha
  have hm := List.mem_of_head? ha
  cases a with
  | key => simp [Piece.view]
  | char c =>
    refine ⟨?_, ?_, ?_⟩ <;> (intro hc; obtain rfl := Option.some.inj hc; exact h.not_mem rfl hm)

/-- All text in the passage might stand in a value. -/
def Valued (p : Passage) : Prop := ∀ c, .char c ∈ p → isWordChar c = true ∨ c ∈ ['[', ']', ',']

theorem Wordy.valued (h : Wordy p) : Valued p := fun c hc => .inl (h c hc)

theorem Valued.not_mem (h : Valued p) {c : Char} (hc : isWordChar c = false) (hc' : c ∉ ['[', ']', ',']) :
    .char c ∉ p := by
  intro hm
  rcases h c hm with hw | hl
  · exact Bool.false_ne_true (hc.symm.trans hw)
  · exact hc' hl

theorem Valued.plain (h : Valued p) : Plain p := by
  intro c hc
  have hsigns : ['\'', '"', '(', ')', '&', '|'].all (fun c => ! isWordChar c && ! ['[', ']', ','].contains c) = true := by
    decide
  have hsign := List.all_eq_true.1 hsigns c hc
  simp only [Bool.and_eq_true, Bool.not_eq_true', List.contains_eq_mem, decide_eq_false_iff_not] at hsign
  exact h.not_mem hsign.1 hsign.2

theorem plain_append (symbol : Comparison) (hl : Plain l) (hr : Plain r) : Plain (l ++ ofText symbol.symbol ++ r) := by
  intro c hc hm
  rw [List.mem_append, List.mem_append] at hm
  rcases hm with (hm | hm) | hm
  · exact hl c hc hm
  · obtain ⟨d, hd, he⟩ := List.mem_map.1 hm
    obtain rfl := Piece.char.inj he
    have hsigns : symbol.symbol.all (fun c => ! ['\'', '"', '(', ')', '&', '|'].contains c) = true := by
      cases symbol <;> rfl
    have hsign := List.all_eq_true.1 hsigns d hd
    simp only [Bool.not_eq_true', List.contains_eq_mem, decide_eq_false_iff_not] at hsign
    exact hsign hc
  · exact hr c hc hm

theorem Valued.isBlank_of_mem (h : Valued p) : ∀ a ∈ p, a.isBlank = false := by
  rintro (c | _) ha
  · rcases h c ha with hw | hl
    · have hc : (! isBlank c) = true := (Bool.and_eq_true_iff.1 hw).1
      rwa [Bool.not_eq_true'] at hc
    · simp only [List.mem_cons, List.not_mem_nil, or_false] at hl
      rcases hl with rfl | rfl | rfl <;> rfl
  · rfl

/-! ## Blanks -/

theorem mem_dropBlanks {c : Char} (hm : .char c ∈ p) (hc : isBlank c = false) : .char c ∈ p.dropBlanks :=
  List.mem_filter.2 ⟨hm, by simpa [Piece.isBlank, Piece.view] using hc⟩

theorem plain_of_dropBlanks (h : Plain p.dropBlanks) : Plain p := by
  intro c hc hm
  have hsigns : ['\'', '"', '(', ')', '&', '|'].all (fun c => ! isBlank c) = true := by decide
  exact h c hc (mem_dropBlanks hm (by simpa using List.all_eq_true.1 hsigns c hc))


theorem trim_eq_self (hhead : ∀ a ∈ p.head?, a.isBlank = false) (hlast : ∀ a ∈ p.getLast?, a.isBlank = false) :
    trim p = p := by
  have hdrop : ∀ {q : Passage}, (∀ a ∈ q.head?, a.isBlank = false) → q.dropWhile Piece.isBlank = q := by
    intro q hq
    cases q with
    | nil => rfl
    | cons a q => exact List.dropWhile_cons_of_neg (by simp [hq a (by simp)])
  rw [trim, hdrop hhead, hdrop (by rwa [List.head?_reverse]), List.reverse_reverse]

theorem trim_eq_self_of_forall (h : ∀ a ∈ p, a.isBlank = false) : trim p = p :=
  trim_eq_self (fun a ha => h a (List.mem_of_head? ha)) fun a ha => h a (List.mem_of_getLast? ha)

/-- What is one piece without blanks is that piece when trimmed. -/
theorem trim_of_dropBlanks_eq {a : Piece} (h : p.dropBlanks = [a]) : trim p = [a] := by
  obtain ⟨u, v, rfl, hu, ha, hv⟩ := List.filter_eq_cons_iff.1 h
  have hblanks : ∀ b ∈ u, b.isBlank = true := fun b hb => by simpa using hu b hb
  have hblanks' : ∀ b ∈ v.reverse, b.isBlank = true := fun b hb => by
    simpa using List.filter_eq_nil_iff.1 hv b (List.mem_reverse.1 hb)
  have ha' : ¬ a.isBlank = true := by simpa using ha
  rw [trim, List.dropWhile_append_of_pos hblanks, List.dropWhile_cons_of_neg ha', List.reverse_cons,
    List.dropWhile_append_of_pos hblanks', List.dropWhile_cons_of_neg ha']
  rfl

/-! ## Cutting at a symbol -/

/-- No character of a comparison stands in the passage. -/
def NoSymbol (p : Passage) : Prop := ∀ symbol : Comparison, ∀ c ∈ symbol.symbol, .char c ∉ p

theorem Valued.noSymbol (h : Valued p) : NoSymbol p := by
  intro symbol c hc
  have hsigns : symbol.symbol.all (fun c => ! isWordChar c && ! ['[', ']', ','].contains c) = true := by
    cases symbol <;> rfl
  have hsign := List.all_eq_true.1 hsigns c hc
  simp only [Bool.and_eq_true, Bool.not_eq_true', List.contains_eq_mem, decide_eq_false_iff_not] at hsign
  exact h.not_mem hsign.1 hsign.2

theorem infix_map_view_of_cut? {word : Text} {cut : Passage × Passage} (h : cut? word p = some cut) :
    word.map some <:+: p.map Piece.view := by
  induction p generalizing cut with
  | nil => cases h
  | cons a p ih =>
    unfold cut? at h
    split at h <;> rename_i hp
    · exact hp.isInfix
    · obtain ⟨other, ho, -⟩ := Option.map_eq_some_iff.1 h
      exact (ih ho).trans (List.suffix_cons _ _).isInfix

/-- A word whose first character is not in front of it is cut at its place. -/
theorem cut?_append {c : Char} {word : Text} (h : .char c ∉ l) (r : Passage) :
    cut? (c :: word) (l ++ ofText (c :: word) ++ r) = some (l, r) := by
  induction l with
  | nil =>
    have hcons : ofText (c :: word) ++ r = .char c :: (ofText word ++ r) := rfl
    have hp : (c :: word).map some <+: (.char c :: (ofText word ++ r) : Passage).map Piece.view :=
      ⟨r.map Piece.view, by simp [ofText, Function.comp_def, Piece.view]⟩
    rw [List.nil_append, hcons, cut?, if_pos hp]
    simp [ofText]
  | cons a l ih =>
    have hp : ¬ (c :: word).map some <+: (a :: (l ++ ofText (c :: word) ++ r)).map Piece.view := by
      intro hp
      have hview : a.view = some c := ((List.cons_prefix_cons.1 hp).1).symm
      cases a with
      | key => cases hview
      | char d =>
        obtain rfl := Option.some.inj hview
        simp at h
    rw [List.cons_append, List.cons_append, cut?, if_neg hp, ih (List.not_mem_of_not_mem_cons h)]
    rfl

theorem NoSymbol.operands?_eq_none (h : NoSymbol p) (symbol : Comparison) : operands? symbol.symbol p = none := by
  obtain ⟨c, word, hword⟩ := List.exists_cons_of_ne_nil symbol.symbol_ne_nil
  cases hcut : cut? symbol.symbol p with
  | none => rw [operands?, hcut]; rfl
  | some cut =>
    have hm : some c ∈ p.map Piece.view := (infix_map_view_of_cut? hcut).subset (by simp [hword])
    exact absurd (mem_map_view_iff.1 hm) (h symbol c (by simp [hword]))

theorem NoSymbol.comparison?_eq_none (h : NoSymbol p) : comparison? p = none := by
  rw [comparison?, List.findSome?_eq_none_iff]
  intro symbol _
  rw [h.operands?_eq_none symbol]
  rfl

/-- A symbol between two passages is found between them, and not as a part of itself. -/
theorem comparison?_append (hl : NoSymbol l) (hr : NoSymbol r) (symbol : Comparison) :
    comparison? (l ++ ofText symbol.symbol ++ r) = some (.comparison symbol (trim l) (trim r)) := by
  obtain ⟨-, before, after, hall, hbefore⟩ := List.find?_eq_some_iff_append.1 symbol.find?_infix
  refine List.findSome?_eq_some_iff.2 ⟨before, symbol, after, hall, ?_, fun other ho => ?_⟩
  · obtain ⟨c, word, hword⟩ := List.exists_cons_of_ne_nil symbol.symbol_ne_nil
    have hcut : cut? symbol.symbol (l ++ ofText symbol.symbol ++ r) = some (l, r) := by
      rw [hword]
      exact cut?_append (hl symbol c (by simp [hword])) r
    have hrest := hr.operands?_eq_none symbol
    rw [operands?, Option.map_eq_none_iff] at hrest
    rw [operands?, hcut]
    simp only [Option.map_some, hrest, Option.map_none, Option.getD_none]
  · -- a symbol that is tried before is no part of this one, and none stands on either side
    cases hcut : cut? other.symbol (l ++ ofText symbol.symbol ++ r) with
    | none => rw [operands?, hcut]; rfl
    | some cut =>
      have hwithin := infix_map_view_of_cut? hcut
      rw [List.map_append, List.map_append] at hwithin
      have hview : (ofText symbol.symbol).map Piece.view = symbol.symbol.map some := by
        simp [ofText, Function.comp_def, Piece.view]
      have hmem : ∀ {p : Passage}, NoSymbol p → ∀ a ∈ other.symbol.map some, a ∉ p.map Piece.view := by
        intro p hp a ha
        obtain ⟨c, hc, rfl⟩ := List.mem_map.1 ha
        exact fun hm => hp other c hc (mem_map_view_iff.1 hm)
      have hsymbol := infix_of_infix_append (by simp [other.symbol_ne_nil]) (hmem hl) (hmem hr) hwithin
      rw [hview, infix_map_iff_of_injective (Option.some_injective _)] at hsymbol
      have := hbefore other ho
      simp [hsymbol] at this

/-! ## Delimiters -/

theorem between?_eq_none {first last : Char} (h : ∀ a ∈ p.head?, a.view ≠ some first) : between? first last p = none := by
  cases p with
  | nil => rfl
  | cons a p =>
    rw [between?, if_neg]
    exact fun hb => h a (by simp) hb.1

theorem between?_append {first last : Char} (hf : .char first ∉ p) (hl : .char last ∉ p) :
    between? first last (.char first :: p ++ [.char last]) = some p := by
  have hfirst : some first ∉ p.map Piece.view := mt mem_map_view_iff.1 hf
  have hlast : some last ∉ p.map Piece.view := mt mem_map_view_iff.1 hl
  have hend : (p ++ [Piece.char last]).getLast?.bind Piece.view = some last := by simp [Piece.view]
  rw [List.cons_append, between?, List.dropLast_concat, if_pos ⟨rfl, hend, hfirst, hlast⟩]

theorem quoted?_eq_none (h : ∀ a ∈ p.head?, a.view ≠ some '\'' ∧ a.view ≠ some '"') : quoted? p = none := by
  rw [quoted?, between?_eq_none fun a ha => (h a ha).1, between?_eq_none fun a ha => (h a ha).2]
  rfl

theorem list?_eq_none (h : ∀ a ∈ p.head?, a.view ≠ some '[') : list? p = none := by
  rw [list?, between?_eq_none h]
  rfl

theorem clauses?_eq_none (h : ∀ connective : Connective, .char connective.symbol ∉ p) : clauses? p = none := by
  rw [clauses?, Option.map_eq_none_iff, List.find?_eq_none]
  intro connective _ hany
  obtain ⟨a, ha, hview⟩ := List.any_eq_true.1 hany
  exact view_ne_of_not_mem (h connective) ha (by simpa using hview)

theorem split_join {c : Char} {ps : List Passage} (hne : ps ≠ []) (h : ∀ p ∈ ps, .char c ∉ p) :
    split c (join c ps) = ps := by
  have hsep : ∀ p ∈ ps, ∀ a ∈ p, decide (a.view = some c) = false := by
    rintro p hp (d | _) ha
    · have hd : d ≠ c := fun hd => h p hp (hd ▸ ha)
      simp [Piece.view, hd]
    · rfl
  induction ps with
  | nil => exact absurd rfl hne
  | cons p ps ih =>
    cases ps with
    | nil =>
      have hp := splitOnP_append_of_forall (hsep p List.mem_cons_self) []
      simpa [split, join] using hp
    | cons q ps =>
      have hrest := ih (by simp) (fun r hr => h r (List.mem_cons_of_mem _ hr))
        fun r hr => hsep r (List.mem_cons_of_mem _ hr)
      rw [join_cons (by simp), split, splitOnP_append_of_forall (hsep p List.mem_cons_self),
        List.splitOnP_cons_eq_if_modifyHead, if_pos (by simp [Piece.view])]
      unfold split at hrest
      simp [hrest]

/-! ## Shapes -/

/-- A sign that no word or date has rules these out. -/
theorem shape_of_mem {c : Char} (hm : .char c ∈ p) (hnull : c ∉ "null".toList) (hc : isOffsetChar c = false)
    (clock : Instant) :
    shape clock p = ((quoted? p).map Shape.quoted <|> (list? p).map Shape.list <|> comparison? p <|>
      clauses? p).getD (.scalar p) := by
  have hmem : ∀ text, p.text? = some text → c ∈ text := by
    intro text h
    rw [eq_ofText_of_text? h] at hm
    obtain ⟨d, hd, he⟩ := List.mem_map.1 hm
    obtain rfl := Piece.char.inj he
    exact hd
  have hdate : p.text?.bind clock.ofRelative? = none :=
    Option.bind_eq_none_iff.2 fun text h => Instant.ofRelative?_eq_none hc (hmem text h)
  rw [shape, if_neg fun h => hnull (hmem _ h), hdate]
  rfl

/-- A quoted literal is quoted, whatever keys stand in it. -/
theorem shape_quotation {quote : Char} (h : .char quote ∉ p) (hquote : quote = '\'' ∨ quote = '"')
    (clock : Instant) : shape clock (Tier.quotation quote p) = .quoted p := by
  have hbetween := between?_append h h
  have hm : .char quote ∈ Tier.quotation quote p := List.mem_cons_self
  rcases hquote with rfl | rfl
  · rw [shape_of_mem hm (by decide) (by decide), quoted?, Tier.quotation, hbetween]
    rfl
  · have hnone : between? '\'' '\'' (Tier.quotation '"' p) = none :=
      between?_eq_none fun a ha => by
        obtain rfl := Option.some.inj (Option.mem_def.1 ha)
        simp [Piece.view]
    rw [shape_of_mem hm (by decide) (by decide), quoted?, hnone, Tier.quotation, hbetween]
    rfl

/-- Brackets make a list. -/
theorem shape_bracketed (hl : .char '[' ∉ p) (hr : .char ']' ∉ p) (clock : Instant) :
    shape clock (.char '[' :: p ++ [.char ']']) = .list (if p = [] then [] else (split ',' p).map trim) := by
  have hquoted : quoted? (.char '[' :: p ++ [.char ']']) = none := quoted?_eq_none fun a ha => by
    obtain rfl := Option.some.inj (Option.mem_def.1 ha)
    simp [Piece.view]
  have hm : .char '[' ∈ .char '[' :: p ++ [.char ']'] := List.mem_cons_self
  rw [shape_of_mem hm (by decide) (by decide), hquoted, list?, between?_append hl hr]
  rfl

/-- A symbol makes a comparison. -/
theorem shape_compared (hl : Wordy l) (hne : l ≠ []) (hr : NoSymbol r) (symbol : Comparison) (clock : Instant) :
    shape clock (l ++ ofText symbol.symbol ++ r) = .comparison symbol (trim l) (trim r) := by
  obtain ⟨c, word, hword⟩ := List.exists_cons_of_ne_nil symbol.symbol_ne_nil
  have hm : .char c ∈ l ++ ofText symbol.symbol ++ r := by simp [hword, ofText]
  have hc : c ∉ "null".toList ∧ isOffsetChar c = false := by
    cases symbol <;> (obtain ⟨rfl, -⟩ := List.cons.inj hword; decide)
  have hhead : (l ++ ofText symbol.symbol ++ r).head? = l.head? := by
    rw [List.append_assoc, List.head?_append_of_ne_nil _ hne]
  have hhead' := hl.head
  rw [← hhead] at hhead'
  rw [shape_of_mem hm hc.1 hc.2, quoted?_eq_none fun a ha => ⟨(hhead' a ha).1, (hhead' a ha).2.1⟩,
    list?_eq_none fun a ha => (hhead' a ha).2.2, comparison?_append hl.valued.noSymbol hr]
  rfl

/-- A word is what it spells out. -/
theorem shape_word {text : Text} (h : Wordy (ofText text)) (clock : Instant) :
    shape clock (ofText text) =
      if text = "null".toList then .null else ((clock.ofRelative? text).map .date).getD (.scalar (ofText text)) := by
  have hclauses : clauses? (ofText text) = none :=
    clauses?_eq_none fun connective => h.not_mem (by cases connective <;> decide)
  rw [shape, text?_ofText, Option.bind_some, quoted?_eq_none fun a ha => ⟨(h.head a ha).1, (h.head a ha).2.1⟩,
    list?_eq_none fun a ha => (h.head a ha).2.2, h.valued.noSymbol.comparison?_eq_none, hclauses]
  simp only [Option.some.injEq]
  congr 1
  cases clock.ofRelative? text <;> rfl

/-! ## Joined clauses -/

/-- No text but blanks and the connective stands in the passage. -/
def Linked (connective : Connective) (p : Passage) : Prop :=
  ∀ c, .char c ∈ p → isBlank c = true ∨ c = connective.symbol

section Linked
variable {connective : Connective} (h : Linked connective p)
include h

theorem Linked.not_mem {c : Char} (hb : isBlank c = false) (hc : c ≠ connective.symbol) : .char c ∉ p := by
  intro hm
  rcases h c hm with hblank | he
  · exact Bool.false_ne_true (hb.symm.trans hblank)
  · exact hc he

theorem Linked.head {c : Char} (hb : isBlank c = false) (hc : c ≠ connective.symbol) :
    ∀ a ∈ p.head?, a.view ≠ some c := by
  rintro (d | _) ha hview
  · obtain rfl := Option.some.inj hview
    exact h.not_mem hb hc (List.mem_of_head? ha)
  · cases hview

theorem Linked.noSymbol : NoSymbol p := by
  intro symbol c hc
  have hsigns : symbol.symbol.all (fun c => ! isBlank c && c != '&' && c != '|') = true := by
    cases symbol <;> rfl
  have hsign := List.all_eq_true.1 hsigns c hc
  simp only [Bool.and_eq_true, Bool.not_eq_true', bne_iff_ne] at hsign
  apply h.not_mem hsign.1.1
  cases connective
  · exact hsign.1.2
  · exact hsign.2

theorem Linked.clauses?_eq_some (hm : .char connective.symbol ∈ p) :
    clauses? p = some (.clauses connective ((split connective.symbol p).map trim)) := by
  let occurs (c : Connective) : Bool := p.any (·.view = some c.symbol)
  have hself : occurs connective = true := List.any_eq_true.2 ⟨_, hm, by simp [Piece.view]⟩
  have hfind : Connective.all.find? occurs = some connective := by
    cases connective with
    | and => exact List.find?_cons_of_pos hself
    | or =>
      have hand : ¬ occurs .and = true := by
        rw [List.any_eq_true]
        rintro ⟨c | _, ha, hview⟩
        · obtain rfl : c = Connective.and.symbol := by simpa [Piece.view] using hview
          exact h.not_mem rfl (by decide) ha
        · simp [Piece.view] at hview
      rw [Connective.all, List.find?_cons_of_neg hand, List.find?_cons_of_pos hself]
  rw [clauses?, hfind]
  rfl

theorem Linked.shape (hm : .char connective.symbol ∈ p) (clock : Instant) :
    p.shape clock = .clauses connective ((split connective.symbol p).map trim) := by
  have hquoted : quoted? p = none := quoted?_eq_none fun a ha =>
    ⟨h.head rfl (by cases connective <;> decide) a ha, h.head rfl (by cases connective <;> decide) a ha⟩
  have hlist : list? p = none := list?_eq_none (h.head rfl (by cases connective <;> decide))
  rw [shape_of_mem hm (by cases connective <;> decide) (by cases connective <;> decide), hquoted, hlist,
    h.noSymbol.comparison?_eq_none, h.clauses?_eq_some hm]
  rfl

end Linked

/-- The passage is one key. -/
def IsKey (p : Passage) : Prop := ∃ number tier value, p = [.key number tier value]

theorem not_isKey_of_mem {c : Char} (hc : .char c ∈ p) : ¬ IsKey p := by
  rintro ⟨number, tier, value, rfl⟩
  cases List.mem_singleton.1 hc

theorem IsKey.isBlank_of_mem (h : IsKey p.dropBlanks) {c : Char} (hc : .char c ∈ p) : isBlank c = true := by
  obtain ⟨number, tier, value, hdrop⟩ := h
  by_contra hno
  have hm := mem_dropBlanks hc (eq_false_of_ne_true hno)
  rw [hdrop] at hm
  simp at hm

/-- Keys with a connective between them are clauses. -/
theorem shape_join (connective : Connective) {ps : List Passage} (hlength : 2 ≤ ps.length)
    (h : ∀ p ∈ ps, IsKey p.dropBlanks) (clock : Instant) :
    shape clock (join connective.symbol ps) = .clauses connective (ps.map trim) := by
  have hblank : ∀ p ∈ ps, ∀ c, .char c ∈ p → isBlank c = true := fun p hp c hc => (h p hp).isBlank_of_mem hc
  have hlinked : Linked connective (join connective.symbol ps) := by
    intro c hc
    rcases mem_join hc with he | ⟨p, hp, hm⟩
    · exact .inr (Piece.char.inj he)
    · exact .inl (hblank p hp c hm)
  have hparts : ∀ p ∈ ps, .char connective.symbol ∉ p := by
    intro p hp hm
    have hb := hblank p hp _ hm
    cases connective <;> cases hb
  have hne : ps ≠ [] := by
    rintro rfl
    simp at hlength
  rw [hlinked.shape ((mem_join_self_iff hparts).2 hlength), split_join hne hparts]

end Passage

end FilterQuery
