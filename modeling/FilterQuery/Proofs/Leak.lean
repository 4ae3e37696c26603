import FilterQuery.Proofs.Mention
import FilterQuery.Proofs.Passage.Compile
/-!
# When a key shows

`Passage.leaks` says that compiling a passage reads a text that has a key in it, as the
content of a literal or as a scalar. `Tokenized.invisible_iff` makes it the exact
condition: two fresh suffixes give the same tree, and no key in either tree, iff the
tokenized input does not leak.
-/

namespace FilterQuery

/-- The shape has parts, so that a tree of it may stand as a clause. -/
def Shape.isCompound {τ : Type} : Shape τ → Bool
  | .list _ => true
  | .comparison .. => true
  | .clauses .. => true
  | _ => false

/-! ## Trees that do not mention a word -/

namespace Node

variable {word : Text} {value : Node}

theorem not_mentions_list {items : List Node} (h : ∀ item ∈ items, ¬ item.Mentions word) :
    ¬ (list items).Mentions word := by
  intro hm
  cases hm with
  | item hitem hm => exact h _ hitem hm

theorem not_mentions_ofOperator (h : ¬ value.Mentions word) (op : Operator) :
    ¬ (ofOperator op value).Mentions word := by
  intro hm
  cases hm with
  | name hm _ => simp at hm
  | value hm hv =>
    obtain ⟨-, rfl⟩ : _ ∧ _ = value := by simpa using hm
    exact h hv

theorem not_mentions_ofField {name : String} (hname : ¬ word <:+: name.toList) (h : ¬ value.Mentions word) :
    ¬ (ofField name value).Mentions word := by
  intro hm
  cases hm with
  | name hm hk =>
    obtain ⟨rfl, -⟩ : _ = name ∧ _ := by simpa using hm
    exact hname hk
  | value hm hv =>
    obtain ⟨-, rfl⟩ : _ ∧ _ = value := by simpa using hm
    exact h hv

theorem not_mentions_constraint (h : ¬ value.Mentions word) (symbol : Comparison) :
    ¬ (symbol.constraint value).Mentions word := by
  cases symbol with
  | regexInsensitive =>
    intro hm
    cases hm with
    | name hm _ => simp at hm
    | value hm hv =>
      rcases List.mem_cons.1 hm with he | hm
      · obtain ⟨-, rfl⟩ := Prod.mk.inj he
        exact h hv
      · obtain ⟨-, rfl⟩ := Prod.mk.inj (List.mem_singleton.1 hm)
        cases hv
  | strictEqual => exact h
  | equal =>
    rw [Comparison.constraint]
    split
    · exact not_mentions_ofOperator h _
    · exact h
  | _ => exact not_mentions_ofOperator h _

theorem not_mentions_ofScalar {text : Text} (h : ¬ word <:+: text) : ¬ (ofScalar text).Mentions word := by
  -- of all that a scalar may be read as, only a string has text in it
  intro hm
  rcases ofScalar_cases text with he | ⟨b, he⟩ | ⟨n, -, he⟩ | ⟨instant, -, he⟩ | he <;> rw [he] at hm <;> cases hm
  next hk => exact h (by simpa using hk)

end Node

/-! ## Leaks -/

namespace Passage

/-- Compiling the passage reads a text with a key in it. Texts that are read as clauses
are dropped as such. -/
def leaks (clock : Instant) : (levels : Nat) → Passage → Bool
  | 0, _ => false
  | levels + 1, p =>
    match shape clock (unwrap p) with
    | .null => false
    | .date _ => false
    | .quoted content => content.text?.isNone
    | .list items => items.any (leaks clock levels)
    | .comparison _ left right => leaks clock levels left || leaks clock levels right
    | .clauses _ parts =>
      parts.any fun part => (shape clock (unwrap part)).isCompound && leaks clock levels part
    | .scalar text => text.text?.isNone

variable {clock : Instant} {levels : Nat} {p : Passage}

/-- What leaks at some level does at all levels above. -/
theorem leaks_mono {more : Nat} (h : leaks clock levels p = true) (hle : levels ≤ more) :
    leaks clock more p = true := by
  induction levels generalizing more p with
  | zero => cases h
  | succ levels ih =>
    obtain ⟨more, rfl⟩ := Nat.exists_eq_add_one_of_ne_zero (Nat.ne_of_gt (Nat.zero_lt_of_lt hle))
    have hle' := Nat.le_of_succ_le_succ hle
    unfold leaks at h ⊢
    cases hp : shape clock (unwrap p) with
    | null => simp [hp] at h
    | date instant => simp [hp] at h
    | quoted content => simpa [hp] using h
    | list items =>
      simp only [hp, List.any_eq_true] at h ⊢
      obtain ⟨item, hm, hleak⟩ := h
      exact ⟨item, hm, ih hleak hle'⟩
    | comparison symbol left right =>
      simp only [hp, Bool.or_eq_true] at h ⊢
      exact h.imp (ih · hle') (ih · hle')
    | clauses connective parts =>
      simp only [hp, List.any_eq_true, Bool.and_eq_true] at h ⊢
      obtain ⟨part, hm, hshape, hleak⟩ := h
      exact ⟨part, hm, hshape, ih hleak hle'⟩
    | scalar text => simpa [hp] using h

/-- A leak that is no leak of a part gives a string. -/
theorem exists_string_of_leaks (h : leaks clock levels p = true)
    (hshape : (shape clock (unwrap p)).isCompound = false) (suffix : Text) :
    ∃ s, compileWithin suffix clock levels p = .string s := by
  cases levels with
  | zero => cases h
  | succ levels =>
    unfold leaks at h
    unfold compileWithin
    cases hp : shape clock (unwrap p) with
    | null => simp [hp] at h
    | date instant => simp [hp] at h
    | quoted content => exact ⟨_, rfl⟩
    | list items => simp [hp, Shape.isCompound] at hshape
    | comparison symbol left right => simp [hp, Shape.isCompound] at hshape
    | clauses connective parts => simp [hp, Shape.isCompound] at hshape
    | scalar text =>
      have hnone : text.text? = none := by simpa [hp] using h
      exact ⟨_, Node.ofScalar_eq_string (underscore_mem_spell hnone suffix)⟩

/-- A part that leaks, but is no compound that leaks, is dropped as a clause. -/
theorem isClause_eq_false_of_leaks (h : leaks clock levels p = true)
    (hpart : ((shape clock (unwrap p)).isCompound && leaks clock levels p) = false) (suffix : Text) :
    (compileWithin suffix clock levels p).isClause = false := by
  rw [h, Bool.and_true] at hpart
  obtain ⟨_, hs⟩ := exists_string_of_leaks h hpart suffix
  rw [hs]
  rfl

theorem isClause_of_isCompound (h : leaks clock levels p = true)
    (hshape : (shape clock (unwrap p)).isCompound = true) (suffix : Text) :
    (compileWithin suffix clock levels p).isClause = true := by
  cases levels with
  | zero => cases h
  | succ levels =>
    unfold compileWithin
    cases hp : shape clock (unwrap p) with
    | list items => rfl
    | comparison symbol left right => rfl
    | clauses connective parts => rfl
    | _ => simp [hp, Shape.isCompound] at hshape

theorem exists_text_of_isNone {q : Passage} (h : q.text?.isNone = false) : ∃ text, q.text? = some text := by
  rwa [Option.isNone_eq_false_iff, Option.isSome_iff_exists] at h

/-- The clauses that are kept do not depend on what is dropped. -/
theorem filter_isClause_congr {f g : Passage → Node} {parts : List Passage}
    (h : ∀ part ∈ parts, f part = g part ∨ ((f part).isClause = false ∧ (g part).isClause = false)) :
    (parts.map f).filter (·.isClause) = (parts.map g).filter (·.isClause) := by
  induction parts with
  | nil => rfl
  | cons part parts ih =>
    have hrest := ih fun other hm => h other (List.mem_cons_of_mem _ hm)
    rw [List.map_cons, List.map_cons, List.filter_cons, List.filter_cons, hrest]
    rcases h part List.mem_cons_self with he | ⟨hf, hg⟩
    · rw [he]
    · rw [hf, hg, if_neg Bool.false_ne_true, if_neg Bool.false_ne_true]

/-- Without a leak a tree depends on text without keys and on what its parts are compiled
to, those aside that are dropped. -/
theorem node_eq_of_not_leaks {f g : Passage → Node} {spell spell' : Passage → Text}
    (h : leaks clock (levels + 1) p = false)
    (hspell : ∀ text word, text.text? = some word → spell text = word ∧ spell' text = word)
    (hcompile : ∀ part, leaks clock levels part = false → f part = g part)
    (hdropped : ∀ part, leaks clock levels part = true →
      ((shape clock (unwrap part)).isCompound && leaks clock levels part) = false →
      (f part).isClause = false ∧ (g part).isClause = false) :
    (shape clock (unwrap p)).node spell f = (shape clock (unwrap p)).node spell' g := by
  unfold leaks at h
  cases hp : shape clock (unwrap p) with
  | null => rfl
  | date instant => rfl
  | quoted content =>
    obtain ⟨word, ht⟩ := exists_text_of_isNone (by simpa [hp] using h)
    obtain ⟨hleft, hright⟩ := hspell content word ht
    rw [Shape.node, Shape.node, hleft, hright]
  | list items =>
    have hitems : ∀ item ∈ items, leaks clock levels item = false := by simpa [hp] using h
    rw [Shape.node, Shape.node, List.map_congr_left fun item hm => hcompile item (hitems item hm)]
  | comparison symbol left right =>
    obtain ⟨hl, hr⟩ : leaks clock levels left = false ∧ leaks clock levels right = false := by
      simpa [hp] using h
    rw [Shape.node, Shape.node, hcompile left hl, hcompile right hr]
  | clauses connective parts =>
    -- a part may leak as long as it is dropped on both sides
    have hparts : ∀ part ∈ parts,
        ((shape clock (unwrap part)).isCompound && leaks clock levels part) = false := by
      simpa [hp] using h
    rw [Shape.node, Shape.node, Node.ofClauses, Node.ofClauses, filter_isClause_congr (g := g) fun part hm => ?_]
    cases hleak : leaks clock levels part with
    | false => exact .inl (hcompile part hleak)
    | true => exact .inr (hdropped part hleak (hparts part hm))
  | scalar text =>
    obtain ⟨word, ht⟩ := exists_text_of_isNone (by simpa [hp] using h)
    obtain ⟨hleft, hright⟩ := hspell text word ht
    rw [Shape.node, Shape.node, hleft, hright]

/-- Without a leak the suffix has no influence. -/
theorem compileWithin_eq_of_not_leaks (h : leaks clock levels p = false) (s t : Text) :
    compileWithin s clock levels p = compileWithin t clock levels p := by
  induction levels generalizing p with
  | zero => rfl
  | succ levels ih =>
    rw [compileWithin, compileWithin]
    apply node_eq_of_not_leaks h
    · exact fun text word ht => ⟨spell_of_text? ht s, spell_of_text? ht t⟩
    · exact fun part hpart => ih hpart
    · exact fun part hleak hpart =>
        ⟨isClause_eq_false_of_leaks hleak hpart s, isClause_eq_false_of_leaks hleak hpart t⟩

/-- Without a leak no key of a fresh suffix shows. -/
theorem not_mentions_of_not_leaks {suffix : Text} (hs : Suffix.IsHex suffix) (hf : Fresh suffix p)
    (h : leaks clock levels p = false) (n : Nat) :
    ¬ (compileWithin suffix clock levels p).Mentions (Minter.key suffix n) := by
  induction levels generalizing p with
  | zero => exact fun hm => by cases hm
  | succ levels ih =>
    have hcontents : ∀ q ∈ (shape clock (unwrap p)).contents, Fresh suffix q :=
      fun q hq => hf.unwrap.mono (infix_of_shape hq)
    have htext : ∀ q text, Fresh suffix q → q.text? = some text → ¬ Minter.key suffix n <:+: text := by
      intro q text hq ht hn
      apply hq n
      rwa [eq_ofText_of_text? ht, expand_ofText]
    unfold leaks at h
    unfold compileWithin
    cases hp : shape clock (unwrap p) with
    | null => exact fun hm => by cases hm
    | date instant => exact fun hm => by cases hm
    | quoted content =>
      obtain ⟨text, ht⟩ := exists_text_of_isNone (by simpa [hp] using h)
      intro hm
      rw [Shape.node, spell_of_text? ht] at hm
      cases hm with
      | string hk =>
        exact htext content text (hcontents content (by simp [hp, Shape.contents])) ht (by simpa using hk)
    | list items =>
      have hitems : ∀ item ∈ items, leaks clock levels item = false := by simpa [hp] using h
      apply Node.not_mentions_list
      intro node hm
      obtain ⟨item, hi, rfl⟩ := List.mem_map.1 hm
      exact ih (hcontents item (by simpa [hp, Shape.contents] using hi)) (hitems item hi)
    | comparison symbol left right =>
      obtain ⟨hl, hr⟩ : leaks clock levels left = false ∧ leaks clock levels right = false := by
        simpa [hp] using h
      have hleft := ih (hcontents left (by simp [hp, Shape.contents])) hl
      have hright := ih (hcontents right (by simp [hp, Shape.contents])) hr
      apply Node.not_mentions_ofField
      · exact fun hk => hleft (Node.mentions_of_fieldName hs hk)
      · exact Node.not_mentions_constraint hright symbol
    | clauses connective parts =>
      have hparts : ∀ part ∈ parts,
          ((shape clock (unwrap part)).isCompound && leaks clock levels part) = false := by
        simpa [hp] using h
      apply Node.not_mentions_ofOperator
      apply Node.not_mentions_list
      intro node hm
      obtain ⟨hm, hclause⟩ := List.mem_filter.1 hm
      obtain ⟨part, hpart, rfl⟩ := List.mem_map.1 hm
      cases hleak : leaks clock levels part with
      | false => exact ih (hcontents part (by simpa [hp, Shape.contents] using hpart)) hleak
      | true =>
        -- the part was kept, but parts that leak are dropped
        rw [isClause_eq_false_of_leaks hleak (hparts part hpart)] at hclause
        cases hclause
    | scalar text =>
      obtain ⟨word, ht⟩ := exists_text_of_isNone (by simpa [hp] using h)
      rw [Shape.node, spell_of_text? ht]
      exact Node.not_mentions_ofScalar (htext text word (hcontents text (by simp [hp, Shape.contents])) ht)

end Passage

/-! ## Leaks show in the text of the tree -/

namespace Json

theorem write_infix_array {style : Style} {depth : Nat} {items : List Json} {item : Json} (hm : item ∈ items) :
    write style (depth + 1) item <:+: write style depth (.array items) := by
  have hrest : ∀ rest : List Json, item ∈ rest →
      write style (depth + 1) item <:+: writeItems style (depth + 1) rest := by
    intro rest hm
    induction rest with
    | nil => cases hm
    | cons next rest ih =>
      unfold writeItems
      rcases List.mem_cons.1 hm with rfl | hm
      · exact ⟨',' :: style.lineBreak (depth + 1), writeItems style (depth + 1) rest, by simp⟩
      · refine (ih hm).trans ⟨',' :: (style.lineBreak (depth + 1) ++ write style (depth + 1) next), [], by simp⟩
  cases items with
  | nil => cases hm
  | cons first rest =>
    rw [write]
    rcases List.mem_cons.1 hm with rfl | hm
    · exact ⟨'[' :: style.lineBreak (depth + 1),
        writeItems style (depth + 1) rest ++ style.lineBreak depth ++ [']'], by simp⟩
    · exact (hrest rest hm).trans ⟨'[' :: (style.lineBreak (depth + 1) ++ write style (depth + 1) first),
        style.lineBreak depth ++ [']'], by simp⟩

theorem quote_infix_object (style : Style) (depth : Nat) (name : String) (value : Json) :
    quote name <:+: write style depth (.object [(name, value)]) := by
  unfold write
  exact ⟨'\x7b' :: style.lineBreak (depth + 1), style.colon ++ write style (depth + 1) value ++
    writeMembers style (depth + 1) [] ++ style.lineBreak depth ++ ['\x7d'], by simp⟩

theorem write_infix_object {style : Style} {depth : Nat} {members : List (String × Json)} {name : String}
    {value : Json} (hm : (name, value) ∈ members) :
    write style (depth + 1) value <:+: write style depth (.object members) := by
  have hrest : ∀ rest : List (String × Json), (name, value) ∈ rest →
      write style (depth + 1) value <:+: writeMembers style (depth + 1) rest := by
    intro rest hm
    induction rest with
    | nil => cases hm
    | cons next rest ih =>
      unfold writeMembers
      rcases List.mem_cons.1 hm with rfl | hm
      · exact ⟨',' :: (style.lineBreak (depth + 1) ++ quote name ++ style.colon),
          writeMembers style (depth + 1) rest, by simp⟩
      · refine (ih hm).trans ⟨',' :: (style.lineBreak (depth + 1) ++ quote next.1 ++ style.colon ++
          write style (depth + 1) next.2), [], by simp⟩
  cases members with
  | nil => cases hm
  | cons first rest =>
    rw [write]
    rcases List.mem_cons.1 hm with rfl | hm
    · exact ⟨'\x7b' :: (style.lineBreak (depth + 1) ++ quote name ++ style.colon),
        writeMembers style (depth + 1) rest ++ style.lineBreak depth ++ ['\x7d'], by simp⟩
    · exact (hrest rest hm).trans ⟨'\x7b' :: (style.lineBreak (depth + 1) ++ quote first.1 ++ style.colon ++
        write style (depth + 1) first.2), style.lineBreak depth ++ ['\x7d'], by simp⟩

theorem mem_insertMember_of_ne {name other : String} {value held : Json} (hne : other ≠ name)
    {members : List (String × Json)} (hm : (other, held) ∈ members) :
    (other, held) ∈ insertMember name value members := by
  induction members with
  | nil => cases hm
  | cons first members ih =>
    unfold insertMember
    split
    · exact List.mem_cons_of_mem _ hm
    · split
      · next hname =>
        rcases List.mem_cons.1 hm with rfl | hm
        · exact absurd hname.symm hne
        · exact List.mem_cons_of_mem _ hm
      · rcases List.mem_cons.1 hm with rfl | hm
        · exact List.mem_cons_self
        · exact List.mem_cons_of_mem _ (ih hm)

end Json

namespace Node

/-- The word stands in the compact text of the tree, at any depth. -/
def Shows (word : Text) (node : Node) : Prop :=
  ∀ depth, word <:+: Json.write Json.compactStyle depth (node.toJson .plain)

variable {word : Text}

theorem Shows.item {items : List Node} {item : Node} (h : item.Shows word) (hm : item ∈ items) :
    (list items).Shows word := by
  intro depth
  rw [toJson, itemsToJson_eq_map]
  exact (h (depth + 1)).trans (Json.write_infix_array (List.mem_map.2 ⟨item, hm, rfl⟩))

theorem Shows.ofField {value : Node} (h : value.Shows word) (name : String) : (ofField name value).Shows word := by
  intro depth
  exact (h (depth + 1)).trans (Json.write_infix_object (List.mem_singleton.2 rfl))

theorem Shows.ofOperator {value : Node} (h : value.Shows word) (op : Operator) :
    (ofOperator op value).Shows word := by
  intro depth
  exact (h (depth + 1)).trans (Json.write_infix_object (List.mem_singleton.2 rfl))

theorem Shows.constraint {value : Node} (h : value.Shows word) (symbol : Comparison) :
    (symbol.constraint value).Shows word := by
  cases symbol with
  | regexInsensitive =>
    intro depth
    have hm : ("regex", value.toJson .plain) ∈
        Json.insertMember "caseInsensitive" (.bool true) [("regex", value.toJson .plain)] :=
      Json.mem_insertMember_of_ne (by decide) List.mem_cons_self
    have htext : (Comparison.regexInsensitive.constraint value).toJson .plain =
        .object (Json.insertMember "caseInsensitive" (.bool true) [("regex", value.toJson .plain)]) := by
      simp only [Comparison.constraint, toJson, entriesToJson, Json.ofMembers, List.foldl_cons, List.foldl_nil]
      rfl
    rw [htext]
    exact (h (depth + 1)).trans (Json.write_infix_object hm)
  | strictEqual => exact h
  | equal =>
    rw [Comparison.constraint]
    split
    · exact h.ofOperator _
    · exact h
  | _ => exact h.ofOperator _

/-- What shows in the text of a tree shows in the field name that it gives. -/
theorem Shows.fieldName {suffix : Text} (hs : Suffix.IsHex suffix) {n : Nat} {node : Node}
    (h : node.Shows (Minter.key suffix n)) : Minter.key suffix n <:+: node.fieldName.toList := by
  have hm : node.Mentions (Minter.key suffix n) := mentions_of_toJson (Json.mentions_of_write hs (h 0))
  cases node with
  | string s =>
    cases hm with
    | string hk => exact hk
  | list items =>
    rw [Node.fieldName, compact, Json.compact, String.toList_ofList]
    exact h 0
  | object entries =>
    rw [Node.fieldName, compact, Json.compact, String.toList_ofList]
    exact h 0
  | _ => cases hm

end Node

namespace Passage

variable {clock : Instant} {levels : Nat} {p : Passage}

/-- A string with a key in it shows the key. -/
theorem shows_string {suffix : Text} (hs : Suffix.IsHex suffix) {lifts : List Lifted}
    (hk : Known suffix lifts p) (hnone : p.text? = none) :
    ∃ lifted ∈ lifts, (Node.string (String.ofList (spell suffix p))).Shows (Minter.key suffix lifted.number) := by
  obtain ⟨number, tier, value, hm⟩ := exists_key_of_text? hnone
  refine ⟨⟨number, tier, value⟩, hk.within _ hm, fun depth => ?_⟩
  rw [Node.toJson, Json.write, Json.key_infix_quote_iff hs, String.toList_ofList]
  exact key_infix_spell hm suffix

/-- A leak shows the key of a lift. -/
theorem shows_of_leaks {suffix : Text} (hs : Suffix.IsHex suffix) {lifts : List Lifted}
    (hl : Layered lifts) (hk : Known suffix lifts p) (h : leaks clock levels p = true) :
    ∃ lifted ∈ lifts, (compileWithin suffix clock levels p).Shows (Minter.key suffix lifted.number) := by
  induction levels generalizing p with
  | zero => cases h
  | succ levels ih =>
    have hcontents : ∀ q ∈ (shape clock (unwrap p)).contents, Known suffix lifts q :=
      fun q hq => (hk.unwrap hl).mono (infix_of_shape hq)
    unfold leaks at h
    unfold compileWithin
    cases hp : shape clock (unwrap p) with
    | null => simp [hp] at h
    | date instant => simp [hp] at h
    | quoted content =>
      exact shows_string hs (hcontents content (by simp [hp, Shape.contents])) (by simpa [hp] using h)
    | list items =>
      obtain ⟨item, hm, hleak⟩ : ∃ item ∈ items, leaks clock levels item = true := by simpa [hp] using h
      obtain ⟨lifted, hlifted, hshows⟩ := ih (hcontents item (by simpa [hp, Shape.contents] using hm)) hleak
      exact ⟨lifted, hlifted, hshows.item (List.mem_map.2 ⟨item, hm, rfl⟩)⟩
    | comparison symbol left right =>
      have hside : leaks clock levels left = true ∨ leaks clock levels right = true := by simpa [hp] using h
      rcases hside with hleak | hleak
      · obtain ⟨lifted, hlifted, hshows⟩ := ih (hcontents left (by simp [hp, Shape.contents])) hleak
        have hname := (Json.key_infix_quote_iff hs _).2 (hshows.fieldName hs)
        exact ⟨lifted, hlifted, fun depth => hname.trans (Json.quote_infix_object Json.compactStyle depth _ _)⟩
      · obtain ⟨lifted, hlifted, hshows⟩ := ih (hcontents right (by simp [hp, Shape.contents])) hleak
        exact ⟨lifted, hlifted, (hshows.constraint symbol).ofField _⟩
    | clauses connective parts =>
      obtain ⟨part, hm, hshape, hleak⟩ : ∃ part ∈ parts,
          (shape clock (unwrap part)).isCompound = true ∧ leaks clock levels part = true := by
        simpa [hp] using h
      obtain ⟨lifted, hlifted, hshows⟩ := ih (hcontents part (by simpa [hp, Shape.contents] using hm)) hleak
      have hclause : (compileWithin suffix clock levels part).isClause = true :=
        isClause_of_isCompound hleak hshape suffix
      have hkept := List.mem_filter.2 ⟨List.mem_map.2 ⟨part, hm, rfl⟩, hclause⟩
      exact ⟨lifted, hlifted, (hshows.item hkept).ofOperator _⟩
    | scalar text =>
      have hnone : text.text? = none := by simpa [hp] using h
      rw [Shape.node, Node.ofScalar_eq_string (underscore_mem_spell hnone suffix)]
      exact shows_string hs (hcontents text (by simp [hp, Shape.contents])) hnone

end Passage

/-! ## The exact condition -/

namespace Tokenized

/-- The tree mentions one of the keys that were minted. -/
def ShowsKey (tokenized : Tokenized) (clock : Instant) : Prop :=
  ∃ entry ∈ tokenized.table.toList, (tokenized.tree clock).Mentions entry.key

/-- A fresh suffix shows in the tree iff the tokenized input leaks. -/
theorem showsKey_iff {suffix : Text} (hs : Suffix.IsHex suffix) {input : Text}
    (h : ∀ n, ¬ Minter.key suffix n <:+: input.dropBlanks) (clock : Instant) :
    (ofText suffix input).ShowsKey clock ↔
      (Passage.tokenize input).1.leaks clock (defaultCeiling + 1) = true := by
  have hk := Passage.known_tokenize hs h
  rw [ShowsKey, table_ofText hs, tree_ofText hs h]
  constructor
  · rintro ⟨entry, hm, hmentions⟩
    obtain ⟨lifted, -, rfl⟩ := List.mem_map.1 (List.mem_reverse.1 hm)
    by_contra hleak
    exact Passage.not_mentions_of_not_leaks hs hk.fresh (eq_false_of_ne_true hleak) lifted.number hmentions
  · intro hleak
    obtain ⟨lifted, hm, hshows⟩ := Passage.shows_of_leaks hs (Passage.tokenize_sound input).1.layered hk hleak
    refine ⟨(lifted.spell suffix).entry, List.mem_reverse.2 (List.mem_map.2 ⟨lifted, hm, rfl⟩), ?_⟩
    exact Node.mentions_of_toJson (Json.mentions_of_write hs (hshows 0))

/-- Two fresh suffixes give the same tree, and none of them shows in it, iff the
tokenized input does not leak. -/
theorem invisible_iff {input s t : Text} (hs : Suffix.Admissible input s) (ht : Suffix.Admissible input t)
    (hs' : ∀ n, ¬ Minter.key s n <:+: input.dropBlanks) (ht' : ∀ n, ¬ Minter.key t n <:+: input.dropBlanks)
    (clock : Instant) :
    ((ofText s input).tree clock = (ofText t input).tree clock ∧
        ¬ (ofText s input).ShowsKey clock ∧ ¬ (ofText t input).ShowsKey clock) ↔
      (Passage.tokenize input).1.leaks clock (defaultCeiling + 1) = false := by
  rw [showsKey_iff hs.2.1 hs', showsKey_iff ht.2.1 ht', tree_ofText hs.2.1 hs', tree_ofText ht.2.1 ht']
  constructor
  · rintro ⟨-, h, -⟩
    exact eq_false_of_ne_true h
  · intro h
    exact ⟨Passage.compileWithin_eq_of_not_leaks h s t, ne_true_of_eq_false h, ne_true_of_eq_false h⟩

/-- A single-quoted literal inside a double-quoted one is lifted out first, so that its
key is read as text. -/
theorem leaks_nested_quotes :
    let input := "\"a'b'c\"".toList
    let clock : Instant := ⟨0, 0, by decide, by decide, by decide⟩
    Suffix.Admissible (Text.dropBlanks input) "f0".toList ∧
      Suffix.Admissible (Text.dropBlanks input) "e1".toList ∧
      (ofText "f0".toList input).tree clock = .string "ax1_f0c" ∧
      (ofText "e1".toList input).tree clock = .string "ax1_e1c" ∧
      (Passage.tokenize input).1.leaks clock (defaultCeiling + 1) = true := by
  intro input clock
  have hs : Suffix.Admissible (Text.dropBlanks input) "f0".toList := by decide
  have ht : Suffix.Admissible (Text.dropBlanks input) "e1".toList := by decide
  refine ⟨hs, ht, rfl, rfl, ?_⟩
  by_contra h
  have hiff := invisible_iff (by decide) (by decide) hs.not_infix_key ht.not_infix_key clock
  have htrees : Node.string "ax1_f0c" = Node.string "ax1_e1c" := (hiff.2 (eq_false_of_ne_true h)).1
  exact absurd (Node.string.inj htrees) (by decide)

end Tokenized

end FilterQuery
