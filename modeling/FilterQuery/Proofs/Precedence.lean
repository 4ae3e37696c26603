import FilterQuery.Proofs.Collision
/-!
# Comparisons and connectives

The compiler looks for a comparison in a text before it looks for connectives, and relies
on the tokenizer to have lifted every comparison out of a text with connectives. A tier
lifts a clause only if the symbol has something on both sides of it in the clause. A mark
that stands beside a connective or at an end of the text dangles, and stays.

`Passage.apart_rewrite` is the invariant over a run of the tiers: in what is left, and in
all that is noted down, a text with connectives has marks that dangle only, and none at all
if every mark outside literals has its operands. `Tokenized.dangling_of_comparison` says so
of the texts that the compiler splits.
-/

namespace FilterQuery

/-! ## Marks -/

/-- The character is the whole symbol of a comparison. Every symbol has such a character. -/
def isMark (c : Char) : Bool := Comparison.all.any fun symbol => symbol.symbol = [c]

theorem exists_symbol_of_isMark {c : Char} (h : isMark c = true) : ∃ symbol : Comparison, symbol.symbol = [c] := by
  obtain ⟨symbol, -, hsymbol⟩ := List.any_eq_true.1 h
  exact ⟨symbol, of_decide_eq_true hsymbol⟩

theorem Comparison.exists_isMark (symbol : Comparison) : ∃ c ∈ symbol.symbol, isMark c = true := by
  have h : symbol.symbol.any isMark = true := by cases symbol <;> decide
  exact List.any_eq_true.1 h

theorem isConnective_of_isMark {c : Char} (h : isMark c = true) : Tier.isConnective c = false := by
  obtain ⟨symbol, hsymbol⟩ := exists_symbol_of_isMark h
  have hno : symbol.symbol.all (! Tier.isConnective ·) = true := by cases symbol <;> decide
  simpa [hsymbol] using hno

theorem isKeyChar_of_isMark {c : Char} (h : isMark c = true) : isKeyChar c = false := by
  obtain ⟨symbol, hsymbol⟩ := exists_symbol_of_isMark h
  exact symbol.isKeyChar_of_mem_symbol c (by simp [hsymbol])

/-! ## Marks without an operand -/

/-- What stands between the two lists lacks an operand: there is a connective on one side,
or nothing. -/
def Dangles (u v : List (Option Char)) : Prop :=
  (∀ sign ∈ u.getLast?, sign.any Tier.isConnective = true) ∨
    ∀ sign ∈ v.head?, sign.any Tier.isConnective = true

/-- Every mark lacks an operand. -/
def Dangling (signs : List (Option Char)) : Prop :=
  ∀ u c v, signs = u ++ some c :: v → isMark c = true → Dangles u v

/-- The sign may stand beside a mark, on the side that the parenthesis opens or closes. -/
def isOperand (parenthesis : Char) (sign : Option Char) : Bool :=
  ! sign.any fun c => Tier.isConnective c || c = parenthesis

/-- Every mark has operands. -/
def Complete (signs : List (Option Char)) : Prop :=
  ∀ u c v, signs = u ++ some c :: v → isMark c = true →
    (∃ sign ∈ u.getLast?, isOperand '(' sign = true) ∧ ∃ sign ∈ v.head?, isOperand ')' sign = true

section Signs
variable {signs before part after u v w : List (Option Char)} {c : Char}

theorem Dangles.mono (h : Dangles (w ++ u) (v ++ after)) : Dangles u v := by
  rcases h with h | h
  · refine .inl fun sign hm => h sign ?_
    rw [Option.mem_def, List.getLast?_append, Option.mem_def.1 hm, Option.some_or]
  · refine .inr fun sign hm => h sign ?_
    rw [Option.mem_def, List.head?_append, Option.mem_def.1 hm, Option.some_or]

theorem dangles_append_left (hne : u ≠ []) : Dangles (w ++ u) v ↔ Dangles u v := by
  rw [Dangles, Dangles, List.getLast?_append_of_ne_nil _ hne]

theorem dangles_append_right (hne : v ≠ []) : Dangles u (v ++ w) ↔ Dangles u v := by
  rw [Dangles, Dangles, List.head?_append_of_ne_nil _ hne]

theorem Dangling.mono {other : List (Option Char)} (h : Dangling signs) (ho : other <:+: signs) :
    Dangling other := by
  obtain ⟨x, y, rfl⟩ := ho
  rintro u c v rfl hc
  exact (h (x ++ u) c (v ++ y) (by simp) hc).mono

/-- A connective is kept by a filter that keeps connectives, so that a mark beside it goes
on to dangle. -/
theorem Dangling.filter {keep : Option Char → Bool}
    (hkeep : ∀ sign, sign.any Tier.isConnective = true → keep sign = true)
    (h : Dangling signs) : Dangling (signs.filter keep) := by
  intro u' c v' hsplit hc
  obtain ⟨u, rest, rfl, rfl, hrest⟩ := List.filter_eq_append_iff.1 hsplit
  obtain ⟨passed, v, rfl, hpassed, -, rfl⟩ := List.filter_eq_cons_iff.1 hrest
  have hnone : passed.filter keep = [] := List.filter_eq_nil_iff.2 hpassed
  rcases h (u ++ passed) c v (by simp) hc with hleft | hright
  · left
    intro sign hm
    rcases List.eq_nil_or_concat passed with rfl | ⟨passed, last, rfl⟩
    · rcases List.eq_nil_or_concat u with rfl | ⟨u, last, rfl⟩
      · cases hm
      · have hlast : last.any Tier.isConnective = true := hleft last (by simp)
        have hsign : last = sign := by simpa [hkeep last hlast] using hm
        exact hsign ▸ hlast
    · -- what was left out beside the mark is no connective
      have hlast : last.any Tier.isConnective = true := hleft last (by simp)
      exact absurd (hkeep last hlast) (hpassed last (by simp))
  · right
    intro sign hm
    cases v with
    | nil => cases hm
    | cons first v =>
      have hfirst : first.any Tier.isConnective = true := hright first (by simp)
      have hsign : first = sign := by simpa [hkeep first hfirst] using hm
      exact hsign ▸ hfirst

/-- In a complete list no mark dangles. -/
theorem Complete.not_isMark (h : Complete signs) (hd : Dangling signs) (hm : some c ∈ signs) : isMark c = false := by
  by_contra hc
  have hmark := eq_true_of_ne_false hc
  obtain ⟨u, v, rfl⟩ := List.append_of_mem hm
  obtain ⟨⟨left, hleft, hl⟩, right, hright, hr⟩ := h u c v rfl hmark
  have hoperand : ∀ parenthesis sign, isOperand parenthesis sign = true → sign.any Tier.isConnective = false := by
    rintro parenthesis (_ | d) hd
    · rfl
    · simp only [isOperand, Option.any_some, Bool.not_eq_true', Bool.or_eq_false_iff] at hd
      exact hd.1
  rcases hd u c v rfl hmark with hside | hside
  · exact absurd (hside left hleft) (by simp [hoperand _ _ hl])
  · exact absurd (hside right hright) (by simp [hoperand _ _ hr])

end Signs

/-! ## What the tiers leave -/

namespace Tier

/-- The tiers of literals. -/
def literals : List Tier := [literal '\'', literal '"']

/-- A mark that its tier does not find dangles. -/
theorem dangles_of_search? {symbol : Comparison} {c : Char} (hsymbol : symbol.symbol = [c]) {p : Passage}
    (h : (comparison symbol).search? Piece.view p = none) {u v : List (Option Char)}
    (hp : p.map Piece.view = u ++ some c :: v) : Dangles u v := by
  by_contra hno
  obtain ⟨hleft, hright⟩ := not_or.1 hno
  obtain ⟨x, hx, hxc⟩ : ∃ x ∈ u.getLast?, ¬ x.any Tier.isConnective = true := by simpa using hleft
  obtain ⟨y, hy, hyc⟩ : ∃ y ∈ v.head?, ¬ y.any Tier.isConnective = true := by simpa using hright
  obtain ⟨u, rfl⟩ := List.getLast?_eq_some_iff.1 hx
  obtain ⟨v, rfl⟩ := List.head?_eq_some_iff.1 hy
  have hsplit : p.map Piece.view = u ++ ([x, some c, y] ++ v) := by simp [hp]
  obtain ⟨k, rest, rfl, -, hrest⟩ := List.map_eq_append_iff.1 hsplit
  obtain ⟨part, l, rfl, hpart, -⟩ := List.map_eq_append_iff.1 hrest
  -- the mark with its two neighbours is a clause that the tier takes
  have hc : isMark c = true := List.any_eq_true.2 ⟨symbol, by cases symbol <;> decide, by simp [hsymbol]⟩
  have hseparates : ∀ sign : Option Char, ¬ sign.any isConnective = true →
      (comparison symbol).separates sign = false := by
    rintro (_ | d) hd
    · rfl
    · simpa [isConnective, separates] using hd
  have hclause : ∀ a ∈ part, (comparison symbol).separates a.view = false := by
    intro a ha
    have hview : a.view ∈ [x, some c, y] := hpart ▸ List.mem_map_of_mem ha
    apply hseparates
    rcases List.mem_cons.1 hview with h | hview
    · rwa [h]
    · rcases List.mem_cons.1 hview with h | hview
      · simp [h, isConnective_of_isMark hc]
      · rwa [List.mem_singleton.1 hview]
  have haccepts : (comparison symbol).accepts (part.map Piece.view) = true := by
    rw [hpart, accepts, hsymbol]
    exact decide_eq_true List.infix_rfl
  have hfront := @front?_append (comparison symbol) rfl part [] hclause (bounds_nil _)
  rw [if_pos haccepts] at hfront
  have hsome : ((comparison symbol).front? Piece.view (part ++ l)).isSome = true := front?_isSome_of_prefix hfront
  rw [front?_eq_none_of_search? h] at hsome
  cases hsome

end Tier

/-- Every mark dangles, unless a tier is left that lifts it with its clause. -/
def Cleared (tiers : List Tier) (signs : List (Option Char)) : Prop :=
  ∀ u c v, signs = u ++ some c :: v → isMark c = true →
    (∃ symbol : Comparison, symbol.symbol = [c] ∧ .comparison symbol ∈ tiers) ∨ Dangles u v

/-- A mark beside a key that was put in stands before it or behind it. -/
theorem split_replace {before after u v : List (Option Char)} {c : Char}
    (h : before ++ none :: after = u ++ some c :: v) :
    (∃ w, before = u ++ some c :: w ∧ v = w ++ none :: after) ∨
      ∃ w, after = w ++ some c :: v ∧ u = before ++ [none] ++ w := by
  rcases List.append_eq_append_iff.1 h with ⟨w, hu, hw⟩ | ⟨w, hu, hw⟩
  · cases w with
    | nil => cases hw
    | cons sign w =>
      obtain ⟨rfl, hafter⟩ := List.cons.inj (List.cons_append ▸ hw)
      exact .inr ⟨w, hafter, by simpa using hu⟩
  · cases w with
    | nil => cases hw
    | cons sign w =>
      obtain ⟨rfl, hv⟩ := List.cons.inj (List.cons_append ▸ hw)
      exact .inl ⟨w, hu, hv⟩

/-- A key is an operand for what stands beside it. -/
theorem Complete.replace {before part after : List (Option Char)} (h : Complete (before ++ part ++ after)) :
    Complete (before ++ none :: after) := by
  intro u c v hsplit hc
  have hkey : ∀ parenthesis, isOperand parenthesis none = true := fun parenthesis => rfl
  rcases split_replace hsplit with ⟨w, rfl, rfl⟩ | ⟨w, rfl, rfl⟩
  · obtain ⟨hleft, hright⟩ := h u c (w ++ (part ++ after)) (by simp) hc
    refine ⟨hleft, ?_⟩
    cases w with
    | nil => exact ⟨none, rfl, hkey _⟩
    | cons sign w => simpa using hright
  · obtain ⟨hleft, hright⟩ := h (before ++ part ++ w) c v (by simp) hc
    refine ⟨?_, hright⟩
    by_cases hw : w = []
    · exact ⟨none, by simp [hw], hkey _⟩
    · rw [List.getLast?_append_of_ne_nil _ hw] at hleft ⊢
      exact hleft

/-- In parentheses a mark has its operands inside. -/
theorem Complete.inner {before inner after : List (Option Char)}
    (h : Complete (before ++ (some '(' :: inner ++ [some ')']) ++ after)) : Complete inner := by
  rintro u c v rfl hc
  obtain ⟨hleft, hright⟩ := h (before ++ [some '('] ++ u) c (v ++ some ')' :: after) (by simp) hc
  constructor
  · by_cases hu : u = []
    · simp [hu, isOperand] at hleft
    · rwa [List.getLast?_append_of_ne_nil _ hu] at hleft
  · cases v with
    | nil => simp [isOperand] at hright
    | cons sign v => simpa using hright

section Steps
variable {tier : Tier} {tiers : List Tier} {p : Passage} {cut : Cut Piece}

/-- As long as a tier of literals or groups is left, all tiers of comparisons are. -/
theorem cleared_of_not_liftsClauses (ht : tier :: tiers <:+ Tier.all) (hclause : tier.liftsClauses = false)
    (signs : List (Option Char)) : Cleared (tier :: tiers) signs := by
  intro u c v _ hc
  obtain ⟨symbol, hsymbol⟩ := exists_symbol_of_isMark hc
  have hall : Tier.comparison symbol ∈ Tier.all := by cases symbol <;> simp_all [Comparison.symbol, Tier.all]
  obtain ⟨passed, hpassed⟩ := ht
  rw [← hpassed] at hall
  rcases List.mem_append.1 hall with hm | hm
  · have horder := List.pairwise_append.1 (hpassed ▸ Tier.all_pairwise)
    rw [horder.2.2 _ hm _ List.mem_cons_self rfl] at hclause
    cases hclause
  · exact .inl ⟨symbol, hsymbol, hm⟩

theorem cleared_all (signs : List (Option Char)) : Cleared Tier.all signs :=
  cleared_of_not_liftsClauses List.suffix_rfl rfl signs

theorem Cleared.pass (h : Cleared (tier :: tiers) (p.map Piece.view)) (hnone : tier.search? Piece.view p = none) :
    Cleared tiers (p.map Piece.view) := by
  intro u c v hp hc
  rcases h u c v hp hc with ⟨symbol, hsymbol, hm⟩ | hdangles
  · rcases List.mem_cons.1 hm with rfl | hm
    · exact .inr (Tier.dangles_of_search? hsymbol hnone hp)
    · exact .inl ⟨symbol, hsymbol, hm⟩
  · exact .inr hdangles

/-- A tier that lifts clauses takes no neighbour of a mark away. -/
theorem Cleared.replace (h : Cleared tiers (p.map Piece.view)) (ht : tier.liftsClauses = true)
    (hs : tier.search? Piece.view p = some cut) (lifted : Lifted) :
    Cleared tiers ((cut.replace lifted).map Piece.view) := by
  have hp := congrArg (List.map Piece.view) (Tier.append_of_search? hs).1
  have hconnective : ∀ {a : Piece} {c : Char}, tier.separates a.view = true → a.view = some c →
      isMark c = false := by
    intro a c ha hview
    by_contra hc
    have hno := isConnective_of_isMark (eq_true_of_ne_false hc)
    simpa [Piece.isConnective, hview, hno] using Tier.isConnective_of_separates ha
  rw [map_view_replace]
  intro u c v hsplit hc
  rcases split_replace hsplit with ⟨w, hbefore, rfl⟩ | ⟨w, hafter, rfl⟩
  · have hw : w ≠ [] := by
      rintro rfl
      -- a clause begins behind a connective, which is no mark
      obtain ⟨front, last, hfront, -, hlast⟩ := List.map_eq_append_iff.1 hbefore
      obtain ⟨a, rfl, ha⟩ := List.map_eq_singleton_iff.1 hlast
      have hmark := hconnective (Tier.separates_before ht hs a (by simp [hfront])) ha
      rw [hc] at hmark
      cases hmark
    have hsplit' : p.map Piece.view = u ++ some c :: (w ++ (cut.part.map Piece.view ++ cut.after.map Piece.view)) := by
      simp [hp, hbefore]
    exact (h _ _ _ hsplit' hc).imp_right fun hd => (dangles_append_right hw).2 ((dangles_append_right hw).1 hd)
  · have hw : w ≠ [] := by
      rintro rfl
      obtain ⟨a, rest, hrest, ha, -⟩ := List.map_eq_cons_iff.1 hafter
      have hmark := hconnective (Tier.separates_after ht hs a (by simp [hrest])) ha
      rw [hc] at hmark
      cases hmark
    have hsplit' : p.map Piece.view = (cut.before.map Piece.view ++ cut.part.map Piece.view) ++ w ++ some c :: v := by
      simp [hp, hafter]
    exact (h _ _ _ hsplit' hc).imp_right fun hd => (dangles_append_left hw).2 ((dangles_append_left hw).1 hd)

theorem Cleared.dangling (h : Cleared tiers (p.map Piece.view)) (hno : ∀ symbol, .comparison symbol ∉ tiers) :
    Dangling (p.map Piece.view) := by
  intro u c v hp hc
  rcases h u c v hp hc with ⟨symbol, -, hm⟩ | hdangles
  · exact absurd hm (hno symbol)
  · exact hdangles

theorem comparison_not_mem_of_suffix (ht : .conjunction :: tiers <:+ Tier.all) (symbol : Comparison) :
    .comparison symbol ∉ Tier.conjunction :: tiers := by
  have hlast : tiers = [] := by simpa [Tier.all, List.suffix_cons_iff] using ht
  simp [hlast]

end Steps

theorem Dangling.dropBlanks {p : Passage} (h : Dangling (p.map Piece.view)) :
    Dangling (p.dropBlanks.map Piece.view) := by
  have hfilter : p.dropBlanks.map Piece.view = (p.map Piece.view).filter fun sign => ! sign.any isBlank := by
    rw [List.filter_map]
    rfl
  rw [hfilter]
  refine h.filter fun sign hsign => ?_
  cases sign with
  | none => cases hsign
  | some c =>
    have hc : c = '&' ∨ c = '|' := by simpa [Tier.isConnective] using hsign
    rcases hc with rfl | rfl <;> rfl

namespace Passage

/-- No comparison in the passage takes in a clause beside it: the passage is a quoted
literal, or one clause, or all its marks dangle, and there are none if all are complete. -/
inductive Apart (complete : Prop) (p : Passage) : Prop
  | quoted (content : Passage) (h : quoted? p = some content)
  | clause (h : ∀ a ∈ p, a.isConnective = false)
  | dangling (h : Dangling (p.map Piece.view)) (hno : complete → ∀ c, some c ∈ p.map Piece.view → isMark c = false)

section Apart
variable {complete : Prop} {tier : Tier} {tiers : List Tier} {p : Passage} {cut : Cut Piece}

theorem Apart.of_dangling (h : Dangling (p.map Piece.view)) (hc : complete → Complete (p.map Piece.view)) {q : Passage}
    (hq : q <:+: p) : Apart complete q.dropBlanks := by
  refine .dangling (h.mono (hq.map _)).dropBlanks fun hcomplete c hm => ?_
  have hmem : some c ∈ p.map Piece.view := by
    have hsub : q.dropBlanks ⊆ p := fun a ha => hq.subset (dropBlanks_subset q ha)
    exact List.map_subset _ hsub hm
  exact (hc hcomplete).not_isMark h hmem

/-- What a tier of literals takes is quoted. -/
theorem exists_quoted? {quote : Char} (ht : .literal quote ∈ Tier.all) {l part after : Passage}
    (hf : (Tier.literal quote).front? Piece.view l = some (part, after)) :
    ∃ content, quoted? part = some content := by
  obtain ⟨-, a, inner, b, rfl, ha, hb, hinner⟩ := append_of_enclosed? hf
  cases a with
  | key => cases ha
  | char c =>
    cases b with
    | key => cases hb
    | char d =>
      obtain rfl := Option.some.inj ha
      obtain rfl := Option.some.inj hb
      have hno : .char d ∉ inner := fun hm => by simpa [isInside, Piece.view] using hinner _ hm
      have hbetween := between?_append hno hno
      have hquote : d = '\'' ∨ d = '"' := by simpa [Tier.all] using ht
      rcases hquote with rfl | rfl
      · exact ⟨inner, by rw [quoted?, hbetween]; rfl⟩
      · refine ⟨inner, ?_⟩
        have hnone : between? '\'' '\'' (.char '"' :: inner ++ [.char '"']) = none :=
          between?_eq_none (by simp [Piece.view])
        rw [quoted?, hnone, hbetween]
        rfl

theorem Apart.lift (ht : tier :: tiers <:+ Tier.all) (hg : tier ≠ .group) (hs : tier.search? Piece.view p = some cut)
    (hp : Cleared (tier :: tiers) (p.map Piece.view)) (hc : complete → Complete (p.map Piece.view)) :
    Apart complete (tier.keep cut.part) := by
  obtain ⟨hsplit, hf⟩ := Tier.append_of_search? hs
  cases tier with
  | group => exact absurd rfl hg
  | literal quote =>
    obtain ⟨content, hcontent⟩ := exists_quoted? (ht.subset List.mem_cons_self) hf
    exact .quoted content hcontent
  | comparison symbol =>
    obtain ⟨-, -, hpart, -⟩ := append_of_segment? hf
    refine .clause fun a ha => ?_
    have hseparates := hpart a (dropBlanks_subset _ ha)
    cases a with
    | key => rfl
    | char c => simpa [Tier.separates, Piece.isConnective, Piece.view, Tier.isConnective] using hseparates
  | conjunction =>
    exact .of_dangling (hp.dangling (comparison_not_mem_of_suffix ht)) hc ⟨cut.before, cut.after, hsplit.symm⟩

/-- A run of the tiers keeps clauses apart in all that is noted down, and leaves marks that
dangle. -/
theorem apart_rewrite (ht : tiers <:+ Tier.all) {register : Register} (hp : Cleared tiers (p.map Piece.view))
    (hc : complete → Complete (p.map Piece.view)) (hr : ∀ lifted ∈ register.newestFirst, Apart complete lifted.value) :
    Dangling ((rewrite tiers register p).1.map Piece.view) ∧
      (complete → Complete ((rewrite tiers register p).1.map Piece.view)) ∧
      ∀ lifted ∈ (rewrite tiers register p).2.newestFirst, Apart complete lifted.value := by
  induction tiers, register, p using rewrite_induction with
  | done register p =>
    rw [rewrite_nil]
    exact ⟨hp.dangling (fun _ => List.not_mem_nil), hc, hr⟩
  | pass tier tiers register p h ih =>
    rw [rewrite_pass h]
    exact ih ((List.suffix_cons _ _).trans ht) (hp.pass h) hc hr
  | lift tier tiers register p cut h hg ih =>
    rw [rewrite_lift h hg]
    have hsplit := (Tier.append_of_search? h).1
    have hvalue := Apart.lift ht hg h hp hc
    apply ih ht
    · cases hclause : tier.liftsClauses with
      | true => exact hp.replace hclause h _
      | false => exact cleared_of_not_liftsClauses ht hclause _
    · intro hcomplete
      have hcomplete' := hc hcomplete
      rw [hsplit, List.map_append, List.map_append] at hcomplete'
      rw [map_view_replace]
      exact hcomplete'.replace
    · intro lifted hm
      rcases List.mem_cons.1 hm with rfl | hm
      · exact hvalue
      · exact hr lifted hm
  | group tiers register p cut h ihc ih =>
    rw [rewrite_group h]
    obtain ⟨hsplit, hf⟩ := Tier.append_of_search? h
    obtain ⟨a, inner, b, hpart, ha, hb, -, -⟩ := Tier.eq_of_front?_group hf
    have hinterior : interior cut.part = inner := by simp [interior, hpart]
    have hviews : complete →
        Complete (cut.before.map Piece.view ++ cut.part.map Piece.view ++ cut.after.map Piece.view) := by
      intro hcomplete
      have hcomplete' := hc hcomplete
      rwa [hsplit, List.map_append, List.map_append] at hcomplete'
    have hinner : complete → Complete ((interior cut.part).map Piece.view) := by
      intro hcomplete
      have hcomplete' := hviews hcomplete
      simp only [hpart, List.cons_append, List.map_cons, List.map_append, ha, hb] at hcomplete'
      rw [hinterior]
      exact hcomplete'.inner
    obtain ⟨hdangling, hcontent, hregister⟩ := ihc List.suffix_rfl (cleared_all _) hinner hr
    apply ih ht
    · exact cleared_of_not_liftsClauses ht rfl _
    · intro hcomplete
      rw [map_view_replace]
      exact (hviews hcomplete).replace
    · intro lifted hm
      rcases List.mem_cons.1 hm with rfl | hm
      · exact .of_dangling hdangling hcontent List.infix_rfl
      · exact hregister lifted hm

end Apart

/-! ## Literals first -/

theorem rewrite_append (tiers rest : List Tier) (register : Register) (p : Passage) :
    rewrite (tiers ++ rest) register p = rewrite rest (rewrite tiers register p).2 (rewrite tiers register p).1 := by
  induction tiers, register, p using rewrite_induction with
  | done register p => rw [rewrite_nil, List.nil_append]
  | pass tier tiers register p h ih => rw [List.cons_append, rewrite_pass h, rewrite_pass h, ih]
  | lift tier tiers register p cut h hg ih =>
    rw [List.cons_append, rewrite_lift h hg, rewrite_lift h hg, ← List.cons_append, ih]
  | group tiers register p cut h _ ih =>
    rw [List.cons_append, rewrite_group h, rewrite_group h, ← List.cons_append, ih]

theorem apart_rewrite_literals {complete : Prop} {tiers : List Tier} (ht : tiers ⊆ Tier.literals) {register : Register}
    {p : Passage} (hr : ∀ lifted ∈ register.newestFirst, Apart complete lifted.value) :
    ∀ lifted ∈ (rewrite tiers register p).2.newestFirst, Apart complete lifted.value := by
  induction tiers, register, p using rewrite_induction with
  | done register p =>
    rw [rewrite_nil]
    exact hr
  | pass tier tiers register p h ih =>
    rw [rewrite_pass h]
    exact ih (List.subset_of_cons_subset ht) hr
  | lift tier tiers register p cut h hg ih =>
    rw [rewrite_lift h hg]
    refine ih ht fun lifted hm => ?_
    rcases List.mem_cons.1 hm with rfl | hm
    · obtain ⟨quote, rfl⟩ : ∃ quote, tier = .literal quote := by
        have hm := ht List.mem_cons_self
        simp only [Tier.literals, List.mem_cons, List.not_mem_nil, or_false] at hm
        rcases hm with rfl | rfl <;> exact ⟨_, rfl⟩
      have hall : Tier.literals ⊆ Tier.all := List.subset_append_left Tier.literals Tier.structural
      obtain ⟨content, hcontent⟩ := exists_quoted? (hall (ht List.mem_cons_self)) (Tier.append_of_search? h).2
      exact .quoted content hcontent
    · exact hr lifted hm
  | group tiers register p cut h _ _ => simpa [Tier.literals] using ht List.mem_cons_self

/-- The signs of an input when each literal is one sign. -/
def unquoted (input : Text) : List (Option Char) := (rewrite Tier.literals .new (ofText input)).1.map Piece.view

/-! ## What the compiler splits -/

section Shapes
variable {complete : Prop} {clock : Instant} {p q : Passage}

theorem parts_of_quoted? {content : Passage} (h : quoted? p = some content) : (shape clock p).parts = [] := by
  unfold shape
  split
  · rfl
  · cases p.text?.bind clock.ofRelative? with
    | some instant => rfl
    | none =>
      rw [h]
      rfl

theorem exists_isMark_of_comparison? {found : Shape Passage} (h : comparison? p = some found) :
    ∃ c, isMark c = true ∧ some c ∈ p.map Piece.view := by
  obtain ⟨symbol, -, hsymbol⟩ := List.exists_of_findSome?_eq_some h
  obtain ⟨sides, hsides, -⟩ := Option.map_eq_some_iff.1 hsymbol
  obtain ⟨cut, hcut, -⟩ := Option.map_eq_some_iff.1 hsides
  obtain ⟨c, hm, hc⟩ := symbol.exists_isMark
  exact ⟨c, hc, (infix_map_view_of_cut? hcut).subset (List.mem_map_of_mem hm)⟩

/-- The parts of a passage are as far apart as the passage. -/
theorem Apart.part (h : Apart complete p) (hq : q ∈ (shape clock p).parts) : Apart complete q := by
  have hstands := infix_of_shape (Shape.parts_subset_contents _ hq)
  cases h with
  | quoted content h =>
    rw [parts_of_quoted? h] at hq
    cases hq
  | clause h => exact .clause fun a ha => h a (hstands.subset ha)
  | dangling h hno =>
    exact .dangling (h.mono (hstands.map _)) fun hcomplete c hm => hno hcomplete c ((hstands.map _).subset hm)

/-- A passage that is split at a comparison and has a connective has marks that dangle
only. If all marks are complete, there is no such passage. -/
theorem Apart.comparison (h : Apart complete p) {symbol : Comparison} {left right : Passage}
    (hshape : shape clock p = .comparison symbol left right) :
    ((∃ a ∈ p, a.isConnective = true) → Dangling (p.map Piece.view)) ∧
      (complete → ∀ a ∈ p, a.isConnective = false) := by
  cases h with
  | quoted content h =>
    have hparts : (shape clock p).parts = [] := parts_of_quoted? h
    rw [hshape] at hparts
    cases hparts
  | clause h =>
    refine ⟨?_, fun _ => h⟩
    rintro ⟨a, ha, hconnective⟩
    rw [h a ha] at hconnective
    cases hconnective
  | dangling h hno =>
    refine ⟨fun _ => h, fun hcomplete => ?_⟩
    have hreads := reads_shape clock p
    rw [hshape] at hreads
    obtain ⟨c, hc, hm⟩ := exists_isMark_of_comparison? hreads
    rw [hno hcomplete c hm] at hc
    cases hc

theorem apart_tokenize (input : Text) :
    Apart (Complete (unquoted input)) (tokenize input).1 ∧
      ∀ lifted ∈ (tokenize input).2.newestFirst, Apart (Complete (unquoted input)) lifted.value := by
  have hliterals : ∀ lifted ∈ (rewrite Tier.literals .new (ofText input)).2.newestFirst,
      Apart (Complete (unquoted input)) lifted.value :=
    apart_rewrite_literals (List.Subset.refl _) (by simp [Register.new])
  have hrest : Tier.structural <:+ Tier.all := ⟨Tier.literals, rfl⟩
  obtain ⟨hdangling, hcomplete, hlifts⟩ :=
    apart_rewrite hrest (cleared_of_not_liftsClauses hrest rfl _) (fun h => h) hliterals
  rw [tokenize, show Tier.all = Tier.literals ++ Tier.structural from rfl, rewrite_append]
  exact ⟨.dangling hdangling fun h c hm => (hcomplete h).not_isMark hdangling hm, hlifts⟩

theorem LooksUp.apart {input : Text} (h : LooksUp clock (tokenize input).1 q) :
    Apart (Complete (unquoted input)) q := by
  obtain ⟨hskeleton, hlifts⟩ := apart_tokenize input
  induction h with
  | start => exact hskeleton
  | value h _ => exact hlifts _ (h.known.1 ⟨_, _, _⟩ List.mem_cons_self)
  | part _ _ hm ih => exact ih.part hm

/-- A mark that dangles in a passage dangles in its spelling. -/
theorem dangling_spell {suffix : Text} (hs : Suffix.IsHex suffix) (h : Dangling (p.map Piece.view)) :
    Dangling ((spell suffix p).map some) := by
  intro u c v hsplit hc
  obtain ⟨u, rest, htext, rfl, hrest⟩ := List.map_eq_append_iff.1 hsplit
  obtain ⟨d, v, rfl, hd, rfl⟩ := List.map_eq_cons_iff.1 hrest
  obtain rfl := Option.some.inj hd
  have hword : ∀ e ∈ [d], isKeyChar e = false := fun e he => List.mem_singleton.1 he ▸ isKeyChar_of_isMark hc
  obtain ⟨pu, pv, rfl, rfl, rfl⟩ := eq_append_of_spell_eq hs (List.cons_ne_nil _ _) hword htext
  have hview : (pu ++ ofText [d] ++ pv).map Piece.view = pu.map Piece.view ++ some d :: pv.map Piece.view := by
    simp [ofText, Piece.view]
  rcases h _ _ _ hview hc with hleft | hright
  · left
    rcases List.eq_nil_or_concat pu with rfl | ⟨pu, a, rfl⟩
    · exact fun sign hm => by cases hm
    · cases a with
      | key => simp [Piece.view] at hleft
      | char e => simpa [Piece.view] using hleft
  · right
    rcases pv with _ | ⟨e | _, pv⟩
    · exact fun sign hm => by cases hm
    · simpa [Piece.view] using hright
    · simp [Piece.view] at hright

end Shapes

end Passage

namespace Tokenized

open Passage

/-- Where the compiler splits a text at a comparison, all marks in it dangle if it has
connectives; and it has none if every mark outside literals has its operands. -/
theorem dangling_of_comparison {input suffix : Text} (h : Suffix.Admissible input.dropBlanks suffix)
    {clock : Instant} {text left right : Text} {symbol : Comparison}
    (hl : (ofText suffix input).table.LooksUp clock (ofText suffix input).skeleton text)
    (hshape : Shape.ofText clock text = .comparison symbol left right) :
    ((∃ c ∈ text, Tier.isConnective c = true) → Dangling (text.map some)) ∧
      (Complete (unquoted input) → ∀ c ∈ text, Tier.isConnective c = false) := by
  have hs : Suffix.IsHex suffix := h.2.1
  obtain ⟨q, hq, rfl⟩ := (ownsKeys_of_admissible h).looksUp clock text hl
  obtain ⟨left, right, hpassage⟩ : ∃ left right, shape clock q = .comparison symbol left right := by
    rw [ofText_spell hs] at hshape
    cases hp : shape clock q <;> rw [hp] at hshape <;> cases hshape
    exact ⟨_, _, rfl⟩
  have hconnective : ∀ c ∈ spell suffix q, Tier.isConnective c = true → .char c ∈ q := by
    intro c hm hc
    have hkey : isKeyChar c = false := by
      have hc' : c = '&' ∨ c = '|' := by simpa [Tier.isConnective] using hc
      rcases hc' with rfl | rfl <;> rfl
    exact (mem_spell_iff hs hkey).1 hm
  obtain ⟨hdangling, hcomplete⟩ := hq.apart.comparison hpassage
  constructor
  · rintro ⟨c, hm, hc⟩
    exact dangling_spell hs (hdangling ⟨.char c, hconnective c hm hc, hc⟩)
  · intro hinput c hm
    by_contra hc
    have hno := hcomplete hinput _ (hconnective c hm (eq_true_of_ne_false hc))
    exact hc hno

/-- A comparison without a value takes in the clause behind the connective. -/
theorem dangling_of_comparison_swallowed :
    let input := "a=&b=1".toList
    let clock : Instant := ⟨0, 0, by decide, by decide, by decide⟩
    let tokenized := ofText "f0".toList input
    Suffix.Admissible (Text.dropBlanks input) "f0".toList ∧
      tokenized.table.LooksUp clock tokenized.skeleton "a=&x1_f0".toList ∧
      Shape.ofText clock "a=&x1_f0".toList = .comparison .equal "a".toList "&x1_f0".toList ∧
      Dangling ("a=&x1_f0".toList.map some) ∧
      tokenized.tree clock = .ofField "a" (.ofOperator .and (.list [.ofField "b" (.number (.integer 1))])) := by
  intro input clock tokenized
  have hs : Suffix.Admissible (Text.dropBlanks input) "f0".toList := by decide
  have hl : tokenized.table.LooksUp clock tokenized.skeleton "a=&x1_f0".toList := .value .start (by decide)
  have hshape : Shape.ofText clock "a=&x1_f0".toList = .comparison .equal "a".toList "&x1_f0".toList := by rfl
  exact ⟨hs, hl, hshape, (dangling_of_comparison hs hl hshape).1 ⟨'&', by decide, rfl⟩, rfl⟩

end Tokenized

end FilterQuery
