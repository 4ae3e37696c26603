import FilterQuery.Proofs.Connectives
import FilterQuery.Proofs.Passage.Unquoted
/-!
# The clock

The clock shows in a tree only through dates relative to it, and each of these begins with
`now`. The compiler reads operands that were put together from what blanks, literals and
keys left of the input, so that it has to be shown that no `now` comes about in that way.

`Text.outside` is a text without its literals in single quotes, and `Passage.outside` the same of
a passage with its keys written out. `Passage.dropBlanks_outside_tokenize` says that tokenizing
keeps it up to blanks, and `Tokenized.tree_eq_of_clock` that two clocks make no difference
where it has no `now`.
-/

namespace FilterQuery

/-! ## Texts without their literals -/

namespace Text

/-- Of the parts between quotes those that stand outside pairs of quotes, from left to right.
A quote without a partner stays. -/
def joinOutside : List Text → Text
  | part :: _ :: next :: parts => part ++ joinOutside (next :: parts)
  | [part, last] => part ++ '\'' :: last
  | [part] => part
  | [] => []

/-- The text without its literals in single quotes. -/
def outside (text : Text) : Text := joinOutside (text.splitOn '\'')

theorem splitOn_of_not_mem {c : Char} {text : Text} (h : c ∉ text) : text.splitOn c = [text] := by
  apply List.splitOnP_eq_singleton
  intro d hd
  rw [beq_eq_false_iff_ne]
  rintro rfl
  exact h hd

theorem splitOn_append_cons {c : Char} {front : Text} (h : c ∉ front) (rest : Text) :
    (front ++ c :: rest).splitOn c = front :: rest.splitOn c := by
  have hfront : front.splitOn c = [front] := splitOn_of_not_mem h
  unfold List.splitOn at hfront ⊢
  rw [List.splitOnP_append_cons (p := (· == c)) front rest (beq_self_eq_true c), hfront]
  rfl

variable {front content rest : Text}

theorem outside_of_not_mem (h : '\'' ∉ front) : outside front = front := by
  unfold outside
  rw [splitOn_of_not_mem h]
  rfl

/-- A quote without a partner is no literal. -/
theorem outside_append_cons (hf : '\'' ∉ front) (hr : '\'' ∉ rest) :
    outside (front ++ '\'' :: rest) = front ++ '\'' :: rest := by
  unfold outside
  rw [splitOn_append_cons hf, splitOn_of_not_mem hr]
  rfl

/-- The first two quotes enclose a literal. -/
theorem outside_literal (hf : '\'' ∉ front) (hc : '\'' ∉ content) :
    outside (front ++ '\'' :: (content ++ '\'' :: rest)) = front ++ outside rest := by
  unfold outside
  rw [splitOn_append_cons hf, splitOn_append_cons hc]
  obtain ⟨next, parts, hparts⟩ := List.exists_cons_of_ne_nil (List.splitOnP_ne_nil (· == '\'') rest)
  rw [List.splitOn, hparts, joinOutside]

end Text

/-! ## Passages without their literals -/

/-- What a lift of the tier stands for outside single quotes, given what its value does. -/
def Tier.outside : Tier → Text → Text
  | literal '\'', _ => []
  | tier, content => tier.wrap content

theorem Tier.outside_of_ne {tier : Tier} (h : tier ≠ .literal '\'') (content : Text) :
    tier.outside content = tier.wrap content := by
  unfold Tier.outside
  split
  · exact absurd rfl h
  · rfl

mutual

/-- A piece with its key written out, without literals in single quotes. -/
def Piece.outside : Piece → Text
  | .char c => [c]
  | .key _ tier value => tier.outside (Passage.outside value)

/-- A passage with all keys written out, without literals in single quotes. -/
def Passage.outside : List Piece → Text
  | [] => []
  | piece :: p => piece.outside ++ Passage.outside p

end

namespace Passage

@[simp]
theorem outside_nil : outside [] = [] := by rw [outside]

@[simp]
theorem outside_cons (piece : Piece) (p : Passage) : outside (piece :: p) = piece.outside ++ outside p := by
  rw [outside]

@[simp]
theorem outside_char (c : Char) : (Piece.char c).outside = [c] := by rw [Piece.outside]

@[simp]
theorem outside_key (number : Nat) (tier : Tier) (value : Passage) :
    (Piece.key number tier value).outside = tier.outside (outside value) := by rw [Piece.outside]

@[simp]
theorem outside_append (p q : Passage) : outside (p ++ q) = outside p ++ outside q := by
  induction p with
  | nil => simp
  | cons piece p ih => simp [ih]

@[simp]
theorem outside_ofText (text : Text) : outside (ofText text) = text := by
  induction text with
  | nil => simp [ofText]
  | cons c text ih => simpa [ofText] using ih

theorem infix_outside {p q : Passage} (h : q <:+: p) : outside q <:+: outside p := by
  obtain ⟨u, v, rfl⟩ := h
  exact ⟨outside u, outside v, by simp⟩

/-- What a key other than that of a literal in single quotes stands for is not left out. -/
theorem infix_outside_key {tier : Tier} (ht : tier ≠ .literal '\'') (number : Nat) (value : Passage) :
    outside value <:+: outside [.key number tier value] := by
  rw [outside_cons, outside_key, outside_nil, List.append_nil, Tier.outside_of_ne ht]
  cases tier with
  | group => exact ⟨['('], [')'], rfl⟩
  | _ => exact List.infix_rfl

theorem dropBlanks_outside_dropBlanks (p : Passage) :
    (outside p.dropBlanks).dropBlanks = (outside p).dropBlanks := by
  induction p with
  | nil => rfl
  | cons piece p ih =>
    by_cases hb : piece.isBlank = true
    · cases piece with
      | key => cases hb
      | char c =>
        have hc : isBlank c = true := by simpa [Piece.isBlank, Piece.view] using hb
        have hdrop : dropBlanks (.char c :: p) = dropBlanks p := by simp [dropBlanks, hb]
        rw [hdrop, ih]
        simp [Text.dropBlanks, hc]
    · have hdrop : dropBlanks (piece :: p) = piece :: dropBlanks p := by simp [dropBlanks, hb]
      rw [hdrop, outside_cons, outside_cons, Text.dropBlanks_append, Text.dropBlanks_append, ih]

/-! ## Tokenizing keeps what stands outside literals -/

section Exhausted
variable {p q : Passage} {cut : Cut Piece}

/-- A lift that stands for the part that was cut out keeps what stands outside literals. -/
theorem dropBlanks_outside_replace {lifted : Lifted}
    (h : lifted.piece.outside.dropBlanks = (outside cut.part).dropBlanks) :
    (outside (cut.replace lifted)).dropBlanks = (outside (cut.before ++ cut.part ++ cut.after)).dropBlanks := by
  simp only [Cut.replace, outside_append, outside_cons, Text.dropBlanks_append, h, List.append_assoc]

theorem outside_of_group {l part after : Passage} (h : Tier.group.front? Piece.view l = some (part, after)) :
    outside part = Tier.group.wrap (outside (Passage.interior part)) := by
  obtain ⟨a, inner, b, rfl, ha, hb, -, -⟩ := Tier.eq_of_front?_group h
  cases a with
  | key => cases ha
  | char c =>
    cases b with
    | key => cases hb
    | char d =>
      obtain rfl := Option.some.inj ha
      obtain rfl := Option.some.inj hb
      simp [Passage.interior, Tier.wrap]

/-- Once no literal in single quotes is left, rewriting keeps what stands outside such
literals, up to blanks. -/
theorem dropBlanks_outside_rewrite {tiers : List Tier} {register : Register} (hp : Quoteless p) :
    (outside (rewrite tiers register p).1).dropBlanks = (outside p).dropBlanks := by
  induction tiers, register, p using rewrite_induction with
  | done register p => rw [rewrite_nil]
  | pass tier tiers register p h ih => rw [rewrite_pass h, ih hp]
  | lift tier tiers register p cut h hg ih =>
    rw [rewrite_lift h hg, ih (hp.replace h _), (Tier.append_of_search? h).1]
    apply dropBlanks_outside_replace
    have htier : (lift tier register cut.part).tier = tier := rfl
    rw [Lifted.piece, outside_key, htier, Tier.outside_of_ne (hp.tier_ne h)]
    cases tier with
    | group => exact absurd rfl hg
    | literal quote => rfl
    | comparison symbol => exact dropBlanks_outside_dropBlanks cut.part
    | conjunction => exact dropBlanks_outside_dropBlanks cut.part
  | group tiers register p cut h ihc ih =>
    obtain ⟨hsplit, hf⟩ := Tier.append_of_search? h
    rw [rewrite_group h, ih (hp.replace h _), hsplit]
    apply dropBlanks_outside_replace
    have hcontent : (outside (liftGroup register cut.part).value).dropBlanks =
        (outside (Passage.interior cut.part)).dropBlanks := by
      rw [← ihc (hp.interior h)]
      exact dropBlanks_outside_dropBlanks _
    rw [Lifted.piece, outside_key, outside_of_group hf]
    exact dropBlanks_wrap .group hcontent

end Exhausted

/-- Lifting the literals out leaves what stands outside them. -/
theorem Unquoted.outside_eq {text : Text} {q : Passage} (h : Unquoted text q) : outside q = text.outside := by
  induction h with
  | plain front hfront => rw [outside_ofText, Text.outside_of_not_mem hfront]
  | single front rest hfront hrest => rw [outside_ofText, Text.outside_append_cons hfront hrest]
  | literal front content number hfront hcontent _ ih =>
    rw [Text.outside_literal hfront hcontent, outside_append, outside_ofText, outside_cons, outside_key, ih]
    simp [Tier.outside]

theorem dropBlanks_outside_tokenize (input : Text) :
    (outside (tokenize input).1).dropBlanks = input.outside.dropBlanks := by
  have hno : '\'' ∉ ([] : Text) := List.not_mem_nil
  obtain ⟨after, q, hunquoted, hquoteless, hq⟩ :=
    exists_rewrite_literals (Tier.Passes.nil (.literal '\'')) Tier.all.tail .new input hno
  have hnil : ∀ p : Passage, [] ++ (p ++ ofText []) = p := fun p => by simp [ofText]
  have hall : Tier.all = .literal '\'' :: Tier.all.tail := rfl
  rw [hnil] at hquoteless hq
  rw [hnil] at hq
  rw [tokenize, hall, hq, dropBlanks_outside_rewrite hquoteless, hunquoted.outside_eq]

/-! ## Operands that are no dates relative to the clock -/

/-- The clock does not show in the operand, because it is a quoted literal or has no `now`
outside literals. -/
inductive Timeless (p : Passage) : Prop
  | quoted (content : Passage) (h : quoted? p = some content)
  | outside (h : ¬ "now".toList <:+: outside p)

/-- A lift of a literal stands for a quoted passage. -/
def KeepsQuotes (lifted : Lifted) : Prop :=
  ∀ quote, lifted.tier = .literal quote → ∃ content, quoted? lifted.value = some content

theorem keepsQuotes_tokenize (input : Text) : ∀ lifted ∈ (tokenize input).2.newestFirst, KeepsQuotes lifted := by
  apply forall_lifts_rewrite (P := KeepsQuotes) (List.Subset.refl Tier.all)
  · rintro tier hall hg register p cut h quote rfl
    exact exists_quoted? hall (Tier.append_of_search? h).2
  · intro register part quote hgroup
    cases hgroup
  · simp [Register.new]

section Timeless
variable {p q : Passage} {lifts : List Lifted}

theorem Timeless.value (hq : ∀ lifted ∈ lifts, KeepsQuotes lifted) {number : Nat} {tier : Tier} {value : Passage}
    (hm : ⟨number, tier, value⟩ ∈ lifts) (h : Timeless [.key number tier value]) : Timeless value := by
  cases h with
  | quoted content h => cases h
  | outside h =>
    by_cases ht : tier = .literal '\''
    · obtain ⟨content, hcontent⟩ := hq _ hm '\'' ht
      exact .quoted content hcontent
    · exact .outside fun hnow => h (hnow.trans (infix_outside_key ht number value))

theorem Timeless.unwrap (hl : Layered lifts) (hq : ∀ lifted ∈ lifts, KeepsQuotes lifted) (hw : Within lifts p)
    (h : Timeless p) : Timeless (unwrap p) := by
  induction p using Passage.unwrap.induct with
  | case1 number tier value ih =>
    have hm : ⟨number, tier, value⟩ ∈ lifts := hw ⟨number, tier, value⟩ List.mem_cons_self
    rw [unwrap_key]
    exact ih (hl.within hm) (h.value hq hm)
  | case2 p hp => rwa [unwrap_of_ne fun number tier value => hp number tier value]

theorem Within.unwrap (hl : Layered lifts) (hw : Within lifts p) : Within lifts (unwrap p) := by
  induction p using Passage.unwrap.induct with
  | case1 number tier value ih =>
    rw [unwrap_key]
    exact ih (hl.within (hw ⟨number, tier, value⟩ List.mem_cons_self))
  | case2 p hp => rwa [unwrap_of_ne fun number tier value => hp number tier value]

theorem Timeless.part {clock : Instant} (h : Timeless p) (hm : q ∈ (shape clock p).parts) : Timeless q := by
  cases h with
  | quoted content h =>
    rw [parts_of_quoted? h] at hm
    cases hm
  | outside h =>
    have hpart : q <:+: p := infix_of_shape (Shape.parts_subset_contents _ hm)
    exact .outside fun hnow => h (hnow.trans (infix_outside hpart))

theorem Timeless.ofRelative? {text : Text} (h : Timeless p) (ht : p.text? = some text) (clock : Instant) :
    clock.ofRelative? text = none := by
  obtain rfl := eq_ofText_of_text? ht
  cases h with
  | quoted content h =>
    -- a quoted literal begins with its quote
    have hnot : ¬ "now".toList <+: text := by
      rintro ⟨rest, rfl⟩
      simp [quoted?, between?, ofText, Piece.view] at h
    by_contra hsome
    obtain ⟨instant, hinstant⟩ := Option.ne_none_iff_exists'.1 hsome
    exact hnot (Instant.now_prefix_of_ofRelative? hinstant)
  | outside h =>
    by_contra hsome
    obtain ⟨instant, hinstant⟩ := Option.ne_none_iff_exists'.1 hsome
    apply h
    rw [outside_ofText]
    exact (Instant.now_prefix_of_ofRelative? hinstant).isInfix

theorem Timeless.shape_eq (h : Timeless p) (clock other : Instant) : shape clock p = shape other p := by
  have hdate : p.text?.bind clock.ofRelative? = p.text?.bind other.ofRelative? := by
    cases ht : p.text? with
    | none => rfl
    | some text => rw [Option.bind_some, Option.bind_some, h.ofRelative? ht, h.ofRelative? ht]
  rw [shape, shape, hdate]

/-- A timeless passage compiles to one tree under all clocks. -/
theorem compileWithin_eq_of_timeless (suffix : Text) (hl : Layered lifts)
    (hq : ∀ lifted ∈ lifts, KeepsQuotes lifted) (clock other : Instant) (levels : Nat) (hw : Within lifts p) (h : Timeless p) :
    compileWithin suffix clock levels p = compileWithin suffix other levels p := by
  induction levels generalizing p with
  | zero => rfl
  | succ levels ih =>
    have hunwrap := h.unwrap hl hq hw
    unfold compileWithin
    rw [hunwrap.shape_eq clock other]
    apply Shape.node_congr
    intro part hm
    have hstands := infix_of_shape (Shape.parts_subset_contents _ hm)
    exact ih ((hw.unwrap hl).mono (List.Subset.refl _) hstands.subset) (hunwrap.part hm)

end Timeless

end Passage

namespace Tokenized

open Passage

/-- A filter without `now` outside its literals in single quotes, blanks left out, compiles to
one tree under all clocks. -/
theorem tree_eq_of_clock {input suffix : Text} (h : Suffix.Admissible input.dropBlanks suffix)
    (hnow : ¬ "now".toList <:+: input.outside.dropBlanks) (clock other : Instant) :
    (ofText suffix input).tree clock = (ofText suffix input).tree other := by
  have hs : Suffix.IsHex suffix := h.2.1
  obtain ⟨hr, hw⟩ := tokenize_sound input
  have htimeless : Timeless (tokenize input).1 := by
    apply Timeless.outside
    intro hwithin
    apply hnow
    have hdrop : Text.dropBlanks "now".toList <:+: (outside (tokenize input).1).dropBlanks := hwithin.filter _
    rwa [dropBlanks_outside_tokenize] at hdrop
  rw [tree_ofText hs h.not_infix_key, tree_ofText hs h.not_infix_key]
  exact compileWithin_eq_of_timeless suffix hr.layered (keepsQuotes_tokenize input) clock other _ hw htimeless

/-- What literals in single quotes say does not count, nor do the letters of `now` where they
stand apart. -/
theorem tree_eq_of_clock_literal :
    let input := "t > 'now-1d' & (n = ow | \"no'w'\" != [on, w])".toList
    Suffix.Admissible (Text.dropBlanks input) "f0".toList ∧ ¬ "now".toList <:+: (Text.outside input).dropBlanks ∧
      ∀ clock other, (ofText "f0".toList input).tree clock = (ofText "f0".toList input).tree other :=
  ⟨by decide, by decide, tree_eq_of_clock (by decide) (by decide)⟩

end Tokenized

end FilterQuery
