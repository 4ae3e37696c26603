import FilterQuery.Proofs.Depth
import FilterQuery.Proofs.Passage.Form
import FilterQuery.Proofs.Passage.Nest
import FilterQuery.Proofs.Passage.Number
import FilterQuery.Proofs.Passage.Seam
/-!
# Parentheses isolate

What stands in parentheses is taken for what it is taken for alone, whatever stands in
the parentheses beside it. `Tokenized.tree_of_groups` says so of any texts without quotes
and parentheses, malformed ones included: the groups are rewritten from one register, but
the register has an influence on numbers only, and numbers have none on the tree, because
texts without quotes do not leak.
-/

namespace FilterQuery

namespace Passage

/-! ## Passages without quotes and parentheses -/

/-- No quote and no parenthesis stands in the passage. -/
def Bare (p : Passage) : Prop := ∀ c ∈ ['\'', '"', '(', ')'], .char c ∉ p

theorem Bare.mono {p q : Passage} (h : Bare p) (hq : q ⊆ p) : Bare q := fun c hc hm => h c hc (hq hm)

theorem bare_ofText {text : Text} (h : ∀ c ∈ ['\'', '"', '(', ')'], c ∉ text) : Bare (ofText text) := by
  intro c hc hm
  exact h c hc (by simpa [ofText] using hm)

/-- A lift of a clause that is bare itself. -/
structure BareLift (lifted : Lifted) : Prop where
  liftsClauses : lifted.tier.liftsClauses = true
  bare : Bare lifted.value

/-- In a bare passage tiers of clauses only find anything. -/
theorem Bare.liftsClauses {tier : Tier} (ht : tier ∈ Tier.all) {p : Passage} {cut : Cut Piece} (hp : Bare p)
    (h : tier.search? Piece.view p = some cut) : tier.liftsClauses = true := by
  obtain ⟨hsplit, hf⟩ := Tier.append_of_search? h
  have hopening : ∀ (c : Char) (a : Piece) (inner : Passage), c ∈ ['\'', '"', '(', ')'] →
      cut.part = a :: inner → a.view ≠ some c := by
    intro c a inner hc hpart hview
    have hm : some c ∈ p.map Piece.view := List.mem_map.2 ⟨a, by simp [hsplit, hpart], hview⟩
    exact hp c hc (mem_map_view_iff.1 hm)
  cases tier with
  | literal quote =>
    obtain ⟨-, a, inner, b, hpart, ha, -⟩ := append_of_enclosed? hf
    have hquote : quote = '\'' ∨ quote = '"' := by simpa [Tier.all] using ht
    exact absurd ha (hopening quote a _ (by rcases hquote with rfl | rfl <;> simp) hpart)
  | group =>
    obtain ⟨a, inner, b, hpart, ha, -⟩ := Tier.eq_of_front?_group hf
    exact absurd ha (hopening '(' a _ (by simp) hpart)
  | comparison symbol => rfl
  | conjunction => rfl

/-- A run of the tiers on a bare passage leaves a bare passage and lifts bare clauses. -/
theorem bare_rewrite {tiers : List Tier} (ht : tiers ⊆ Tier.all) {register : Register} {p : Passage} (hp : Bare p)
    (hr : ∀ lifted ∈ register.newestFirst, BareLift lifted) :
    Bare (rewrite tiers register p).1 ∧ ∀ lifted ∈ (rewrite tiers register p).2.newestFirst, BareLift lifted := by
  induction tiers, register, p using rewrite_induction with
  | done register p =>
    rw [rewrite_nil]
    exact ⟨hp, hr⟩
  | pass tier tiers register p h ih =>
    rw [rewrite_pass h]
    exact ih (List.subset_of_cons_subset ht) hp hr
  | lift tier tiers register p cut h hg ih =>
    rw [rewrite_lift h hg]
    have hclause := hp.liftsClauses (ht List.mem_cons_self) h
    rw [(Tier.append_of_search? h).1] at hp
    apply ih ht
    · intro c hc hm
      have hm' : .char c ∈ cut.before ∨ .char c ∈ cut.after := by simpa [Cut.replace, Lifted.piece] using hm
      exact hp c hc (by rcases hm' with hm' | hm' <;> simp [hm'])
    · intro lifted hm
      rcases List.mem_cons.1 hm with rfl | hm
      · exact ⟨hclause, hp.mono fun a ha => by simp [keep_subset tier _ ha]⟩
      · exact hr lifted hm
  | group tiers register p cut h _ _ =>
    cases hp.liftsClauses (ht List.mem_cons_self) h

/-! ## Bare passages do not leak -/

theorem clauses?_ne_none {p : Passage} {a : Piece} (ha : a ∈ p) (hc : a.isConnective = true) : clauses? p ≠ none := by
  intro hnone
  rw [clauses?, Option.map_eq_none_iff, List.find?_eq_none] at hnone
  have hno : ∀ connective : Connective, a.view ≠ some connective.symbol := by
    intro connective hview
    have hall : connective ∈ Connective.all := by cases connective <;> decide
    exact hnone connective hall (List.any_eq_true.2 ⟨a, ha, by simp [hview]⟩)
  cases a with
  | key => cases hc
  | char c =>
    have hconnective : c = '&' ∨ c = '|' := by simpa [Piece.isConnective, Piece.view, Tier.isConnective] using hc
    rcases hconnective with rfl | rfl
    · exact hno .and rfl
    · exact hno .or rfl

/-- The passage is bare and seamed, and its keys are those of bare clauses. -/
structure Open (lifts : List Lifted) (p : Passage) : Prop where
  within : Within lifts p
  bare : Bare p
  seamed : Seamed p

section Open
variable {lifts : List Lifted} {p q : Passage}

theorem Open.mono (h : Open lifts p) (hq : q <:+: p) : Open lifts q :=
  ⟨h.within.mono (List.Subset.refl _) hq.subset, h.bare.mono hq.subset, h.seamed.infix hq⟩

theorem Open.dropBlanks (h : Open lifts p) : Open lifts p.dropBlanks :=
  ⟨h.within.mono (List.Subset.refl _) (dropBlanks_subset p), h.bare.mono (dropBlanks_subset p), h.seamed.dropBlanks⟩

/-- A bare text taken apart is open. -/
theorem open_tokenize {text : Text} (h : Bare (ofText text)) :
    Open (tokenize text).2.newestFirst (tokenize text).1 ∧
      ∀ lifted ∈ (tokenize text).2.newestFirst, BareLift lifted := by
  have hnew : ∀ lifted ∈ Register.new.newestFirst, BareLift lifted := nofun
  obtain ⟨hbare, hlifts⟩ := bare_rewrite (List.Subset.refl _) h hnew
  exact ⟨⟨(tokenize_sound text).2, hbare, (seamed_tokenize text).1⟩, hlifts⟩

variable {clock : Instant} (hl : Layered lifts) (hlifts : ∀ lifted ∈ lifts, BareLift lifted ∧ lifted.Sealed)
include hl hlifts

theorem Open.unwrap (h : Open lifts p) : Open lifts (unwrap p) := by
  induction p using Passage.unwrap.induct with
  | case1 number tier value ih =>
    have hm := h.within ⟨number, tier, value⟩ List.mem_cons_self
    obtain ⟨hbare, hsealed⟩ := hlifts _ hm
    rw [unwrap_key]
    exact ih ⟨hl.within hm, hbare.bare, hsealed.seamed⟩
  | case2 p hp => rwa [unwrap_of_ne hp]

omit hl in
/-- A key in an open passage that is not all of it has a connective beside it. -/
theorem Open.exists_connective (h : Open lifts p) (hkey : ¬ IsKey p) (hnone : p.text? = none) :
    ∃ a ∈ p, a.isConnective = true := by
  obtain ⟨number, tier, value, hm⟩ := exists_key_of_text? hnone
  have hclause : (Piece.key number tier value).isClause = true :=
    (hlifts _ (h.within ⟨number, tier, value⟩ hm)).1.liftsClauses
  obtain ⟨u, v, rfl⟩ := List.append_of_mem hm
  obtain ⟨-, hright, hleft⟩ := List.isChain_append.1 h.seamed
  cases v with
  | cons b v =>
    have hseam := (List.isChain_cons.1 hright).1 b rfl
    exact ⟨b, by simp, hseam.1 hclause⟩
  | nil =>
    rcases List.eq_nil_or_concat u with rfl | ⟨u, b, rfl⟩
    · exact absurd ⟨number, tier, value, rfl⟩ hkey
    · exact ⟨b, by simp, (hleft b (by simp) _ rfl).2 hclause⟩

omit hl hlifts in
theorem not_isKey_unwrap (p : Passage) : ¬ IsKey (Passage.unwrap p) := by
  induction p using Passage.unwrap.induct with
  | case1 number tier value ih => rwa [unwrap_key]
  | case2 p hp =>
    rw [unwrap_of_ne hp]
    rintro ⟨number, tier, value, he⟩
    exact hp number tier value he

/-- An open passage does not leak: a key in it is a clause between connectives or all
that there is. -/
theorem Open.not_leaks (levels : Nat) (h : Open lifts p) : leaks clock levels p = false := by
  induction levels generalizing p with
  | zero => rfl
  | succ levels ih =>
    have hopen := h.unwrap hl hlifts
    have hcontents : ∀ q ∈ (shape clock (Passage.unwrap p)).contents, Open lifts q :=
      fun q hq => hopen.mono (infix_of_shape hq)
    have hreads := reads_shape clock (Passage.unwrap p)
    unfold leaks
    cases hp : shape clock (Passage.unwrap p) with
    | null => rfl
    | date instant => rfl
    | quoted content =>
      have hquoted : quoted? (Passage.unwrap p) = some content := by rwa [hp] at hreads
      rw [quoted?_eq_none fun a ha => ?_] at hquoted
      · cases hquoted
      · have hm := List.mem_of_head? ha
        exact ⟨view_ne_of_not_mem (hopen.bare _ (by simp)) hm, view_ne_of_not_mem (hopen.bare _ (by simp)) hm⟩
    | list items =>
      simp only [List.any_eq_false, Bool.not_eq_true]
      exact fun item hm => ih (hcontents item (by simpa [hp, Shape.contents] using hm))
    | comparison symbol left right =>
      simp only [Bool.or_eq_false_iff]
      have hleft := hcontents left (by simp [hp, Shape.contents])
      have hright := hcontents right (by simp [hp, Shape.contents])
      exact ⟨ih hleft, ih hright⟩
    | clauses connective parts =>
      simp only [List.any_eq_false, Bool.and_eq_true, not_and, Bool.not_eq_true]
      exact fun part hm _ => ih (hcontents part (by simpa [hp, Shape.contents] using hm))
    | scalar text =>
      rw [hp] at hreads
      obtain ⟨rfl, hclauses⟩ := hreads
      by_contra hleak
      have hnone : (Passage.unwrap p).text? = none := by simpa using hleak
      obtain ⟨a, ha, hconnective⟩ := hopen.exists_connective hlifts (not_isKey_unwrap p) hnone
      exact clauses?_ne_none ha hconnective hclauses

end Open

end Passage

/-! ## Groups side by side -/

namespace Text

/-- Texts in parentheses, with a connective between them. -/
def grouped (connective : Connective) : List Text → Text
  | [] => []
  | [text] => '(' :: text ++ [')']
  | text :: other :: rest => '(' :: text ++ ')' :: connective.symbol :: grouped connective (other :: rest)

theorem grouped_cons (connective : Connective) {rest : List Text} (hne : rest ≠ []) (text : Text) :
    grouped connective (text :: rest) = '(' :: text ++ ')' :: connective.symbol :: grouped connective rest := by
  obtain ⟨other, rest, rfl⟩ := List.exists_cons_of_ne_nil hne
  rfl

theorem infix_grouped {connective : Connective} {groups : List Text} {text : Text} (hm : text ∈ groups) :
    text <:+: grouped connective groups := by
  induction groups with
  | nil => cases hm
  | cons other rest ih =>
    rcases rest with _ | ⟨next, rest⟩
    · obtain rfl := List.mem_singleton.1 hm
      exact ⟨['('], [')'], rfl⟩
    · rw [grouped_cons connective (List.cons_ne_nil _ _)]
      rcases List.mem_cons.1 hm with rfl | hm
      · exact ⟨['('], ')' :: connective.symbol :: grouped connective (next :: rest), by simp⟩
      · exact (ih hm).trans ⟨'(' :: other ++ [')', connective.symbol], [], by simp⟩

/-- Beside what stands in a group, all connectives are structural. -/
theorem countP_isStructural_grouped {connective : Connective} {groups : List Text} {text : Text}
    (hm : text ∈ groups) :
    text.countP isStructural + groups.length ≤ (grouped connective groups).countP isStructural + 1 := by
  have hparenthesis : isStructural '(' = false ∧ isStructural ')' = false := ⟨rfl, rfl⟩
  induction groups generalizing text with
  | nil => cases hm
  | cons other rest ih =>
    rcases rest with _ | ⟨next, rest⟩
    · obtain rfl := List.mem_singleton.1 hm
      simp [grouped, List.countP_append, hparenthesis]
    · have hcount : (grouped connective (other :: next :: rest)).countP isStructural =
          other.countP isStructural + ((grouped connective (next :: rest)).countP isStructural + 1) := by
        rw [grouped_cons connective (List.cons_ne_nil _ _)]
        simp [List.countP_append, hparenthesis, connective.isStructural_symbol]
      rw [hcount, List.length_cons]
      rcases List.mem_cons.1 hm with rfl | hm
      · have hrest := ih List.mem_cons_self
        rw [List.length_cons] at hrest ⊢
        omega
      · have hrest := ih hm
        omega

end Text

namespace Passage

theorem ofText_grouped (connective : Connective) (groups : List Text) :
    ofText (Text.grouped connective groups) =
      join connective.symbol (groups.map fun text => parenthesized (ofText text)) := by
  induction groups with
  | nil => rfl
  | cons text rest ih =>
    rcases rest with _ | ⟨other, rest⟩
    · simp [Text.grouped, join, parenthesized, ofText]
    · rw [Text.grouped_cons connective (List.cons_ne_nil _ _), List.map_cons, join_cons (by simp), ← ih]
      simp [ofText, parenthesized]

/-- The key of a group that holds the text. -/
def GroupKey (text : Text) (q : Passage) : Prop :=
  ∃ number register, q = [.key number .group (rewrite Tier.all register (ofText text)).1.dropBlanks]

/-- Groups are lifted one by one, each as it stands. -/
theorem closes_grouped (connective : Connective) {groups : List Text} (hne : groups ≠ [])
    (hgroups : ∀ text ∈ groups, text ≠ [] ∧ Bare (ofText text)) :
    (ofText (Text.grouped connective groups)).Closes fun q =>
      ∃ qs, List.Forall₂ GroupKey groups qs ∧ q = join connective.symbol qs := by
  have hgroup : ∀ text ∈ groups, (parenthesized (ofText text)).Closes (GroupKey text) := by
    intro text hm
    obtain ⟨htext, hbare⟩ := hgroups text hm
    have hclosed := closes_of_not_mem (hbare '(' (by simp)) (hbare ')' (by simp))
    have hne' : ∀ q, q = ofText text → q ≠ [] := by
      rintro q rfl
      simpa [ofText] using htext
    refine (hclosed.enclose hne').imp fun q hq => ?_
    obtain ⟨number, register, content, rfl, rfl⟩ := hq
    exact ⟨number, register, rfl⟩
  rw [ofText_grouped]
  clear hgroups
  induction groups with
  | nil => exact absurd rfl hne
  | cons text rest ih =>
    have htext := hgroup text List.mem_cons_self
    rcases rest with _ | ⟨other, rest⟩
    · exact htext.imp fun q hq => ⟨[q], .cons hq .nil, rfl⟩
    · have hrest := ih (List.cons_ne_nil _ _) fun text hm => hgroup text (List.mem_cons_of_mem _ hm)
      have hsymbol : connective.symbol ∉ ['(', ')'] := by cases connective <;> decide
      rw [List.map_cons, join_cons (by simp)]
      refine (htext.append_char hsymbol hrest).imp ?_
      rintro q ⟨q₁, q₂, hq₁, ⟨qs, hqs, rfl⟩, rfl⟩
      have hne' : qs ≠ [] := by
        rintro rfl
        cases hqs
      exact ⟨q₁ :: qs, .cons hq₁ hqs, (join_cons hne' q₁).symm⟩

/-- No tier of comparisons lifts a key. -/
theorem ClauseLifted.eq_key {tiers : List Tier} {seg q : Passage} (h : ClauseLifted tiers seg q) (hkey : IsKey seg) :
    q = seg := by
  obtain ⟨number, tier, value, rfl⟩ := hkey
  have hview : ([.key number tier value] : Passage).map Piece.view = [none] := rfl
  simpa [ClauseLifted, hview, Tier.accepts_none] using h

theorem AlternativeLifted.eq_key {seg q : Passage} (h : AlternativeLifted [seg] q) (hkey : IsKey seg) : q = seg := by
  obtain ⟨rs, hrs, hq⟩ := h
  obtain ⟨r, rfl, hr⟩ := exists_of_forall₂_singleton hrs
  rw [if_neg (by simp), join_singleton] at hq
  rw [hq, hr.eq_key hkey]

theorem eq_of_forall₂ {R : Passage → Passage → Prop} {qs rs : List Passage} (h : List.Forall₂ R qs rs)
    (heq : ∀ q ∈ qs, ∀ r, R q r → r = q) : rs = qs := by
  induction h with
  | nil => rfl
  | cons hr _ ih => rw [heq _ List.mem_cons_self _ hr, ih fun q hm => heq q (List.mem_cons_of_mem _ hm)]

theorem IsKey.plain {q : Passage} (h : IsKey q) : Plain q := by
  obtain ⟨number, tier, value, rfl⟩ := h
  intro c _ hm
  simp at hm

theorem IsKey.dropBlanks {q : Passage} (h : IsKey q) : q.dropBlanks = q := by
  obtain ⟨number, tier, value, rfl⟩ := h
  rfl

theorem dropBlanks_join_keys {c : Char} (hc : isBlank c = false) {qs : List Passage} (hkeys : ∀ q ∈ qs, IsKey q) :
    (join c qs).dropBlanks = join c qs := by
  have hmap : qs.map Passage.dropBlanks = qs.map id := List.map_congr_left fun q hm => (hkeys q hm).dropBlanks
  rw [dropBlanks_join hc, hmap, List.map_id]

/-- All that the tiers lift from keys with a connective between them is a conjunction of
all of them. -/
theorem rewrite_keys (connective : Connective) {qs : List Passage} (hne : qs ≠ []) (hkeys : ∀ q ∈ qs, IsKey q)
    (register : Register) :
    (rewrite Tier.structural register (join connective.symbol qs)).1 = join connective.symbol qs ∨
      ∃ number, (rewrite Tier.structural register (join connective.symbol qs)).1 =
        [.key number .conjunction (join connective.symbol qs)] := by
  cases connective with
  | and =>
    have hsegs : ∀ segs ∈ [qs], segs ≠ [] ∧ ∀ seg ∈ segs, Plain seg := by
      intro segs hm
      obtain rfl := List.mem_singleton.1 hm
      exact ⟨hne, fun seg hseg => (hkeys seg hseg).plain⟩
    obtain ⟨after, rs, hrs, hrewrite⟩ := rewrite_flat (List.cons_ne_nil _ _) hsegs register
    rw [rewrite_all_flat fun segs hm => (hsegs segs hm).2] at hrewrite
    obtain ⟨r, rfl, ⟨ps, hps, hr⟩⟩ := exists_of_forall₂_singleton hrs
    obtain rfl := eq_of_forall₂ hps fun q hm r hr => hr.eq_key (hkeys q hm)
    have hstart : join Connective.and.symbol ps = ofAlternatives [ps] := rfl
    rw [hstart, hrewrite]
    split at hr
    · obtain ⟨number, rfl⟩ := hr
      right
      exact ⟨number, by rw [join_singleton, dropBlanks_join_keys rfl hkeys]; rfl⟩
    · exact .inl hr
  | or =>
    left
    have hsegs : ∀ segs ∈ qs.map ([·]), segs ≠ [] ∧ ∀ seg ∈ segs, Plain seg := by
      intro segs hm
      obtain ⟨q, hq, rfl⟩ := List.mem_map.1 hm
      refine ⟨List.cons_ne_nil _ _, fun seg hseg => ?_⟩
      obtain rfl := List.mem_singleton.1 hseg
      exact (hkeys seg hq).plain
    have hne' : qs.map ([·]) ≠ [] := by simpa using hne
    obtain ⟨after, rs, hrs, hrewrite⟩ := rewrite_flat hne' hsegs register
    rw [rewrite_all_flat fun segs hm => (hsegs segs hm).2] at hrewrite
    have hstart : join Connective.or.symbol qs = ofAlternatives (qs.map ([·])) := by
      simp [ofAlternatives, Function.comp_def, join_singleton, Connective.symbol]
    obtain rfl := eq_of_forall₂ (List.forall₂_map_left_iff.1 hrs) fun q hm r hr => hr.eq_key (hkeys q hm)
    rw [hstart, hrewrite]
    exact hstart

theorem GroupKey.isKey {text : Text} {q : Passage} (h : GroupKey text q) : IsKey q := by
  obtain ⟨number, register, rfl⟩ := h
  exact ⟨_, _, _, rfl⟩

/-- Groups with a connective between them are taken apart to their keys. -/
theorem tokenize_grouped (connective : Connective) {groups : List Text} (hne : groups ≠ [])
    (hgroups : ∀ text ∈ groups, text ≠ [] ∧ Bare (ofText text)) :
    ∃ qs, List.Forall₂ GroupKey groups qs ∧
      ((tokenize (Text.grouped connective groups)).1 = join connective.symbol qs ∨
        ∃ number, (tokenize (Text.grouped connective groups)).1 =
          [.key number .conjunction (join connective.symbol qs)]) := by
  have hquote : ∀ quote ∈ ['\'', '"'], .char quote ∉ ofText (Text.grouped connective groups) := by
    intro quote hquote hm
    rw [ofText_grouped] at hm
    rcases mem_join hm with he | ⟨p, hp, hm⟩
    · have hsymbol : connective.symbol ∉ ['\'', '"'] := by cases connective <;> decide
      exact hsymbol (Piece.char.inj he ▸ hquote)
    · obtain ⟨text, ht, rfl⟩ := List.mem_map.1 hp
      have hparenthesis : quote ≠ '(' ∧ quote ≠ ')' := by
        constructor <;> (rintro rfl; simp at hquote)
      have hm' : .char quote ∈ ofText text := by simpa [parenthesized, hparenthesis] using hm
      exact (hgroups text ht).2 quote (List.mem_append_left ['(', ')'] hquote) hm'
  obtain ⟨after, _, ⟨qs, hqs, rfl⟩, -, -, hclose⟩ := closes_grouped connective hne hgroups .new
  have hkeys : ∀ q ∈ qs, IsKey q := by
    intro q hm
    obtain ⟨text, -, hq⟩ := exists_of_mem_forall₂ hqs hm
    exact hq.isKey
  have hne' : qs ≠ [] := by
    rintro rfl
    cases hqs
    exact hne rfl
  have hopen := hclose (Tier.comparisons ++ [.conjunction]) [] [] List.not_mem_nil
  simp only [List.nil_append, List.append_nil] at hopen
  have htokenize : tokenize (Text.grouped connective groups) =
      rewrite Tier.structural after (join connective.symbol qs) := by
    have hsingle := Tier.passes_literal (hquote '\'' (by simp))
    have hdouble := Tier.passes_literal (hquote '"' (by simp))
    rw [tokenize, Tier.all_eq, rewrite_pass hsingle.settles.search?_eq_none,
      rewrite_pass hdouble.settles.search?_eq_none]
    exact hopen
  rw [htokenize]
  exact ⟨qs, hqs, rewrite_keys connective hne' hkeys after⟩

/-- Keys with a connective between them compile to the clauses that they stand for. -/
theorem compileWithin_join_keys (connective : Connective) {qs : List Passage} (hlength : 2 ≤ qs.length)
    (hkeys : ∀ q ∈ qs, IsKey q) (suffix : Text) (clock : Instant) (levels : Nat) :
    compileWithin suffix clock (levels + 1) (join connective.symbol qs) =
      .ofClauses connective (qs.map (compileWithin suffix clock levels)) := by
  have hno : ∀ q ∈ qs, .char connective.symbol ∉ q :=
    fun q hm => (hkeys q hm).plain _ (by cases connective <;> decide)
  have hjoin : ¬ IsKey (join connective.symbol qs) := not_isKey_of_mem ((mem_join_self_iff hno).2 hlength)
  have hdrop : ∀ q ∈ qs, IsKey q.dropBlanks := fun q hm => (hkeys q hm).dropBlanks.symm ▸ hkeys q hm
  have htrim : qs.map trim = qs.map id := by
    refine List.map_congr_left fun q hm => ?_
    obtain ⟨number, tier, value, rfl⟩ := hkeys q hm
    exact trim_of_dropBlanks_eq rfl
  rw [compileWithin, unwrap_of_ne fun number tier value he => hjoin ⟨number, tier, value, he⟩,
    shape_join connective hlength hdrop, htrim, List.map_id, Shape.node]

/-- A group compiles to what its content alone does, as long as levels are left. -/
theorem compileWithin_groupKey {suffix text : Text} {q : Passage} (hbare : Bare (ofText text)) (h : GroupKey text q)
    (clock : Instant) {levels : Nat} (hlevels : text.countP isStructural < levels)
    (hle : levels ≤ defaultCeiling + 1) :
    compileWithin suffix clock levels q =
      compileWithin suffix clock (defaultCeiling + 1) (tokenize text).1.dropBlanks := by
  obtain ⟨number, register, rfl⟩ := h
  obtain ⟨hopen, hlifts⟩ := open_tokenize hbare
  have hsealed := (seamed_tokenize text).2
  have hleak : leaks clock levels (tokenize text).1.dropBlanks = false :=
    hopen.dropBlanks.not_leaks (tokenize_sound text).1.layered
      (fun lifted hm => ⟨hlifts lifted hm, hsealed lifted hm⟩) levels
  have halike : unnumbered (tokenize text).1.dropBlanks =
      unnumbered (rewrite Tier.all register (ofText text)).1.dropBlanks := by
    rw [unnumbered_dropBlanks, unnumbered_dropBlanks]
    exact congrArg Passage.dropBlanks (unnumbered_rewrite Tier.all .new register rfl)
  have hweight : weight (tokenize text).1.dropBlanks < levels := by rwa [weight_dropBlanks, weight_tokenize]
  rw [compileWithin_key, ← compileWithin_congr halike hleak, compileWithin_eq suffix clock hweight hle]

end Passage

namespace Tokenized

open Passage

/-- The tree of a tokenized input whose skeleton is stripped of blanks. -/
def strippedTree (tokenized : Tokenized) (clock : Instant) : Node :=
  tokenized.table.compile clock tokenized.skeleton.dropBlanks

theorem strippedTree_ofText {suffix : Text} (hs : Suffix.IsHex suffix) {text : Text}
    (h : ∀ n, ¬ Minter.key suffix n <:+: text.dropBlanks) (clock : Instant) :
    (ofText suffix text).strippedTree clock =
      compileWithin suffix clock (defaultCeiling + 1) (tokenize text).1.dropBlanks := by
  have hknown : Known suffix (tokenize text).2.newestFirst (tokenize text).1.dropBlanks := by
    have hwithin := (tokenize_sound text).2.mono (List.Subset.refl _) (dropBlanks_subset _)
    refine ⟨hwithin, fresh_of_dropBlanks hs fun n hn => ?_⟩
    rw [dropBlanks_expand_dropBlanks, dropBlanks_expand_tokenize] at hn
    exact h n hn
  rw [strippedTree, table_ofText hs, ofText_eq hs, dropBlanks_spell hs]
  exact Register.compileWithin_spell hs (tokenize_sound text).1 clock _ hknown

section Groups
variable {connective : Connective} {groups : List Text} {suffix : Text}
  (hgroups : ∀ text ∈ groups, text ≠ [] ∧ ∀ c ∈ ['\'', '"', '(', ')'], c ∉ text)
  (h : Suffix.Admissible (Text.grouped connective groups).dropBlanks suffix)
include hgroups h

/-- Groups with a connective between them compile as their keys do. -/
theorem exists_tree_of_keys (hne : groups ≠ []) (clock : Instant) :
    ∃ qs, List.Forall₂ GroupKey groups qs ∧ (ofText suffix (Text.grouped connective groups)).tree clock =
      compileWithin suffix clock (defaultCeiling + 1) (join connective.symbol qs) := by
  have hbare : ∀ text ∈ groups, text ≠ [] ∧ Bare (Passage.ofText text) :=
    fun text hm => ⟨(hgroups text hm).1, bare_ofText (hgroups text hm).2⟩
  obtain ⟨qs, hqs, htokenize⟩ := tokenize_grouped connective hne hbare
  refine ⟨qs, hqs, ?_⟩
  rw [tree_ofText h.2.1 h.not_infix_key]
  rcases htokenize with he | ⟨number, he⟩
  · rw [he]
  · rw [he, compileWithin_key]

/-- The key of a group compiles to what the content does alone, as long as levels are left. -/
theorem compileWithin_of_group {text : Text} (hm : text ∈ groups) {q : Passage} (hq : GroupKey text q)
    (clock : Instant) {levels : Nat} (hlevels : text.countP isStructural < levels)
    (hle : levels ≤ defaultCeiling + 1) :
    compileWithin suffix clock levels q = (ofText suffix text).strippedTree clock := by
  have hfresh : ∀ n, ¬ Minter.key suffix n <:+: text.dropBlanks :=
    fun n hn => h.not_infix_key n (hn.trans ((Text.infix_grouped hm).filter _))
  rw [strippedTree_ofText h.2.1 hfresh, compileWithin_groupKey (bare_ofText (hgroups text hm).2) hq clock hlevels hle]

end Groups

/-- Parentheses isolate: groups with a connective between them compile to the operator of the
connective on the clauses among the trees that their contents compile to alone, and a single
group to what its content does. -/
theorem tree_of_groups {connective : Connective} {groups : List Text} {suffix : Text}
    (hgroups : ∀ text ∈ groups, text ≠ [] ∧ ∀ c ∈ ['\'', '"', '(', ')'], c ∉ text)
    (hcount : (Text.grouped connective groups).countP isStructural ≤ defaultCeiling)
    (h : Suffix.Admissible (Text.grouped connective groups).dropBlanks suffix) (clock : Instant) :
    let op : Operator := match connective with
      | .and => .and
      | .or => .or
    let parts := groups.map fun text => (ofText suffix text).strippedTree clock
    (2 ≤ groups.length → (ofText suffix (Text.grouped connective groups)).tree clock =
        .ofOperator op (.list (parts.filter (·.isClause)))) ∧
      ∀ text, groups = [text] → (ofText suffix (Text.grouped connective groups)).tree clock =
        (ofText suffix text).strippedTree clock := by
  have hweight : ∀ text ∈ groups, text.countP isStructural + groups.length ≤ defaultCeiling + 1 :=
    fun text hm => (Text.countP_isStructural_grouped hm).trans (Nat.succ_le_succ hcount)
  intro op parts
  constructor
  · intro hlength
    obtain ⟨qs, hqs, htree⟩ := exists_tree_of_keys hgroups h (List.ne_nil_of_length_pos (by omega)) clock
    have hkeys : ∀ q ∈ qs, IsKey q := by
      intro q hm
      obtain ⟨text, -, hq⟩ := exists_of_mem_forall₂ hqs hm
      exact hq.isKey
    have hparts : List.Forall₂ (fun text q =>
        (ofText suffix text).strippedTree clock = compileWithin suffix clock defaultCeiling q) groups qs := by
      refine ((List.forall₂_and_left _ _).2 ⟨fun text hm => hm, hqs⟩).imp ?_
      rintro text q ⟨hm, hq⟩
      have hlevels := hweight text hm
      exact (compileWithin_of_group hgroups h hm hq clock (by omega) (Nat.le_succ _)).symm
    have hop : connective.operator = op := by cases connective <;> rfl
    rw [htree, compileWithin_join_keys connective (hqs.length_eq ▸ hlength) hkeys, ← map_eq_map_of_forall₂ hparts,
      Node.ofClauses, hop]
  · rintro text rfl
    obtain ⟨qs, hqs, htree⟩ := exists_tree_of_keys hgroups h (List.cons_ne_nil _ _) clock
    obtain ⟨q, rfl, hq⟩ := exists_of_forall₂_singleton hqs
    have hlevels : text.countP isStructural + 1 ≤ defaultCeiling + 1 := hweight text List.mem_cons_self
    rw [htree, join_singleton]
    exact compileWithin_of_group hgroups h List.mem_cons_self hq clock hlevels (Nat.le_refl _)

/-- What is malformed in a group is compiled as it is alone, and a word, which is no clause, is
left out. -/
theorem tree_of_groups_malformed :
    let groups := ["a=&b".toList, "[1 =".toList, "d".toList, "c > 2 | d".toList]
    (∀ text ∈ groups, text ≠ [] ∧ ∀ c ∈ ['\'', '"', '(', ')'], c ∉ text) ∧
      Text.grouped .and groups = "(a=&b)&([1 =)&(d)&(c > 2 | d)".toList ∧
      (Text.grouped .and groups).countP isStructural ≤ defaultCeiling ∧
      Suffix.Admissible (Text.grouped .and groups).dropBlanks "f0".toList ∧
      ∀ clock, (ofText "f0".toList (Text.grouped .and groups)).tree clock =
        .ofOperator .and (.list [
          .ofField "a" (.ofOperator .and (.list [])),
          .ofField "[1" .null,
          .ofOperator .or (.list [.ofField "c" (.ofOperator .gt (.number (.integer 2)))])]) := by
  intro groups
  have hgroups : ∀ text ∈ groups, text ≠ [] ∧ ∀ c ∈ ['\'', '"', '(', ')'], c ∉ text := by
    have hall : groups.all (fun text => ! text.isEmpty && ['\'', '"', '(', ')'].all (! text.contains ·)) = true := rfl
    intro text hm
    have htext := List.all_eq_true.1 hall text hm
    simpa only [Bool.and_eq_true, Bool.not_eq_true', List.isEmpty_eq_false_iff, List.all_eq_true, List.contains_eq_mem,
      decide_eq_false_iff_not] using htext
  have hcount : (Text.grouped .and groups).countP isStructural ≤ defaultCeiling := by decide
  have hs : Suffix.Admissible (Text.grouped .and groups).dropBlanks "f0".toList := by decide
  refine ⟨hgroups, by decide, hcount, hs, fun clock => ?_⟩
  rw [(tree_of_groups hgroups hcount hs clock).1 (by decide)]
  rfl

end Tokenized

end FilterQuery
