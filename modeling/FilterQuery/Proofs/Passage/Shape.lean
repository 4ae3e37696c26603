import FilterQuery.Proofs.Passage.Basic
import FilterQuery.Proofs.Recognize
import FilterQuery.Shape
/-!
# Shapes of passages

The shape of an operand does not depend on how its keys are spelled:
`Passage.ofText_spell` says that a spelled passage has the shape of the passage, with
its parts spelled. Each search that a shape is decided by has its twin on passages.
-/

namespace FilterQuery

/-! ## Shapes with other parts -/

namespace Shape

variable {σ τ : Type}

/-- The shape with each part rewritten. -/
def map (f : σ → τ) : Shape σ → Shape τ
  | null => null
  | date instant => date instant
  | quoted content => quoted (f content)
  | list items => list (items.map f)
  | comparison symbol left right => comparison symbol (f left) (f right)
  | clauses connective parts => clauses connective (parts.map f)
  | scalar text => scalar (f text)

/-- What a shape holds: the text that is read, or the parts that are compiled in their
turn. -/
def contents : Shape τ → List τ
  | null => []
  | date _ => []
  | quoted content => [content]
  | list items => items
  | comparison _ left right => [left, right]
  | clauses _ parts => parts
  | scalar text => [text]

/-- The parts of a shape that are compiled in their turn. -/
def parts : Shape τ → List τ
  | list items => items
  | comparison _ left right => [left, right]
  | clauses _ parts => parts
  | _ => []

theorem parts_subset_contents (shape : Shape τ) : shape.parts ⊆ shape.contents := by
  cases shape <;> simp [parts, contents]

theorem parts_map (f : σ → τ) (shape : Shape σ) : (shape.map f).parts = shape.parts.map f := by
  cases shape <;> rfl

end Shape

/-! ## Splitting -/

theorem splitOnP_append_of_forall {α : Type} {sep : α → Bool} {l : List α} (h : ∀ a ∈ l, sep a = false)
    (r : List α) : (l ++ r).splitOnP sep = (r.splitOnP sep).modifyHead (l ++ ·) := by
  induction l with
  | nil =>
    cases hr : r.splitOnP sep <;> simp [hr]
  | cons a l ih =>
    rw [List.cons_append, List.splitOnP_cons_eq_if_modifyHead, if_neg (by simp [h a]),
      ih fun b hb => h b (List.mem_cons_of_mem _ hb)]
    cases hr : r.splitOnP sep <;> simp

theorem infix_of_mem_splitOnP {α : Type} {sep : α → Bool} {l x : List α} (h : x ∈ l.splitOnP sep) :
    x <:+: l := by
  have key : ∀ l : List α, (∀ x ∈ l.splitOnP sep, x <:+: l) ∧ ∀ x ∈ (l.splitOnP sep).head?, x <+: l := by
    intro l
    induction l with
    | nil => simp
    | cons a l ih =>
      obtain ⟨x, xs, hx⟩ := List.exists_cons_of_ne_nil (List.splitOnP_ne_nil sep l)
      rw [hx] at ih
      rw [List.splitOnP_cons_eq_if_modifyHead, hx]
      by_cases ha : sep a = true
      · rw [if_pos ha]
        refine ⟨fun y hy => ?_, by simp⟩
        rcases List.mem_cons.1 hy with rfl | hy
        · exact List.nil_infix
        · exact (ih.1 y hy).trans (List.suffix_cons a l).isInfix
      · have hp : a :: x <+: a :: l := List.cons_prefix_cons.2 ⟨rfl, ih.2 x (by simp)⟩
        rw [if_neg ha]
        refine ⟨fun y hy => ?_, by simpa using ih.2 x (by simp)⟩
        rcases List.mem_cons.1 hy with rfl | hy
        · exact hp.isInfix
        · exact (ih.1 y (List.mem_cons_of_mem _ hy)).trans (List.suffix_cons a l).isInfix
  exact (key l).1 x h

/-! ## Searches in passages -/

namespace Passage

/-- The text of a passage without keys. -/
def text? (p : Passage) : Option Text := p.mapM Piece.view

/-- The passage without the blanks at its two ends. -/
def trim (p : Passage) : Passage := ((p.dropWhile Piece.isBlank).reverse.dropWhile Piece.isBlank).reverse

/-- The parts of a passage between the occurrences of a character. -/
def split (c : Char) (p : Passage) : List Passage := p.splitOnP fun piece => piece.view = some c

/-- The passage between two characters that stand first and last, if neither of the
given characters occurs in it. -/
def between? (first last : Char) : Passage → Option Passage
  | [] => none
  | piece :: p =>
    if piece.view = some first ∧ p.getLast?.bind Piece.view = some last ∧
        some first ∉ p.dropLast.map Piece.view ∧ some last ∉ p.dropLast.map Piece.view then some p.dropLast
    else none

/-- The content of a passage that is one quoted literal. -/
def quoted? (p : Passage) : Option Passage := between? '\'' '\'' p <|> between? '"' '"' p

/-- The items of a passage that is one list in brackets. -/
def list? (p : Passage) : Option (List Passage) :=
  (between? '[' ']' p).map fun content => if content = [] then [] else (split ',' content).map trim

/-- What stands before and after the first occurrence of a word. -/
def cut? (word : Text) : Passage → Option (Passage × Passage)
  | [] => none
  | piece :: p =>
    if word.map some <+: (piece :: p).map Piece.view then some ([], (piece :: p).drop word.length)
    else (cut? word p).map fun (before, after) => (piece :: before, after)

/-- What stands left of the first occurrence of a symbol, and right of it up to the
second. -/
def operands? (symbol : Text) (p : Passage) : Option (Passage × Passage) :=
  (cut? symbol p).map fun (left, rest) => (left, ((cut? symbol rest).map (·.1)).getD rest)

/-- The comparison whose symbol is the first in order to occur in a passage. -/
def comparison? (p : Passage) : Option (Shape Passage) :=
  Comparison.all.findSome? fun c =>
    (operands? c.symbol p).map fun (left, right) => .comparison c (trim left) (trim right)

/-- The clauses of a passage in which a connective occurs. -/
def clauses? (p : Passage) : Option (Shape Passage) :=
  (Connective.all.find? fun c => p.any (·.view = some c.symbol)).map fun c =>
    .clauses c ((split c.symbol p).map trim)

/-- The shape of a passage under a clock. -/
def shape (clock : Instant) (p : Passage) : Shape Passage :=
  if p.text? = some "null".toList then .null
  else
    let shape? := (p.text?.bind clock.ofRelative?).map .date <|> (quoted? p).map .quoted <|>
      (list? p).map .list <|> comparison? p <|> clauses? p
    shape?.getD (.scalar p)

/-! ## Passages without keys -/

theorem text?_cons (piece : Piece) (p : Passage) :
    text? (piece :: p) = piece.view.bind fun c => (text? p).map (c :: ·) := by
  rw [text?, List.mapM_cons]
  cases piece.view with
  | none => rfl
  | some c => cases h : p.mapM Piece.view <;> simp [text?, h]

@[simp]
theorem text?_ofText (text : Text) : text? (ofText text) = some text := by
  induction text with
  | nil => rfl
  | cons c text ih =>
    rw [show ofText (c :: text) = .char c :: ofText text from rfl, text?_cons, ih]
    rfl

theorem eq_ofText_of_text? {p : Passage} {text : Text} (h : p.text? = some text) : p = ofText text := by
  induction p generalizing text with
  | nil =>
    obtain rfl := Option.some.inj h
    rfl
  | cons piece p ih =>
    rw [text?_cons] at h
    cases piece with
    | char c =>
      obtain ⟨text, ht, rfl⟩ := Option.map_eq_some_iff.1 h
      rw [ih ht]
      rfl
    | key => cases h

theorem spell_of_text? {p : Passage} {text : Text} (h : p.text? = some text) (suffix : Text) :
    spell suffix p = text := by
  rw [eq_ofText_of_text? h, spell_ofText]

/-- A passage with a key has one of its lifts. -/
theorem exists_key_of_text? {p : Passage} (h : p.text? = none) :
    ∃ number tier value, .key number tier value ∈ p := by
  induction p with
  | nil => cases h
  | cons piece p ih =>
    cases piece with
    | key number tier value => exact ⟨number, tier, value, List.mem_cons_self⟩
    | char c =>
      rw [text?_cons] at h
      obtain ⟨number, tier, value, hm⟩ := ih (by simpa [Piece.view] using h)
      exact ⟨number, tier, value, List.mem_cons_of_mem _ hm⟩

theorem key_infix_spell {p : Passage} {number : Nat} {tier : Tier} {value : Passage}
    (h : .key number tier value ∈ p) (suffix : Text) : Minter.key suffix number <:+: spell suffix p := by
  obtain ⟨u, v, rfl⟩ := List.append_of_mem h
  exact ⟨spell suffix u, spell suffix v, by simp⟩

theorem underscore_mem_spell {p : Passage} (h : p.text? = none) (suffix : Text) : '_' ∈ spell suffix p := by
  obtain ⟨number, tier, value, hm⟩ := exists_key_of_text? h
  exact (key_infix_spell hm suffix).subset (by simp [Minter.key])

/-! ## Searches do not look into keys -/

section Hex
variable {suffix : Text} (hs : Suffix.IsHex suffix)
include hs

omit hs in
theorem dropWhile_isBlank_spell (p : Passage) :
    (spell suffix p).dropWhile isBlank = spell suffix (p.dropWhile Piece.isBlank) := by
  induction p with
  | nil => rfl
  | cons piece p ih =>
    cases piece with
    | char c => cases h : isBlank c <;> simp [Piece.isBlank, Piece.view, h, ih]
    | key number tier value =>
      have hx : isBlank 'x' = false := by decide
      simp [Minter.key, Piece.isBlank, Piece.view, hx]

theorem trimEnd_spell (p : Passage) :
    (spell suffix p).trimEnd = spell suffix (p.reverse.dropWhile Piece.isBlank).reverse := by
  induction p using List.reverseRecOn with
  | nil => rfl
  | append_singleton p piece ih =>
    cases piece with
    | char c =>
      cases h : isBlank c with
      | true => simpa [Text.trimEnd, Piece.isBlank, Piece.view, h] using ih
      | false => simp [Text.trimEnd, Piece.isBlank, Piece.view, h]
    | key number tier value =>
      have hkey : ∀ c ∈ (Minter.key suffix number).reverse, isBlank c = false :=
        fun c hc => isBlank_of_isKeyChar (isKeyChar_of_mem_key hs (List.mem_reverse.1 hc))
      obtain ⟨c, l, hl⟩ := List.exists_cons_of_ne_nil (l := (Minter.key suffix number).reverse) (by simp [Minter.key])
      rw [hl] at hkey
      have hc := hkey c List.mem_cons_self
      rw [Text.trimEnd, spell_append, spell_key_cons, spell_nil, List.append_nil, List.reverse_append, hl,
        List.cons_append, List.dropWhile_cons_of_neg (by simp [hc]), ← List.cons_append, ← hl]
      simp [Piece.isBlank, Piece.view]

theorem trim_spell (p : Passage) : (spell suffix p).trim = spell suffix p.trim := by
  rw [Text.trim, dropWhile_isBlank_spell, trimEnd_spell hs]
  rfl

theorem splitOn_spell {c : Char} (hc : isKeyChar c = false) (p : Passage) :
    (spell suffix p).splitOn c = (split c p).map (spell suffix) := by
  rw [List.splitOn_eq_splitOnP, split]
  induction p with
  | nil => rfl
  | cons piece p ih =>
    obtain ⟨x, xs, hx⟩ := List.exists_cons_of_ne_nil
      (List.splitOnP_ne_nil (fun piece : Piece => decide (piece.view = some c)) p)
    rw [hx] at ih
    rw [List.splitOnP_cons_eq_if_modifyHead, hx]
    cases piece with
    | char d =>
      rw [spell_char_cons, List.splitOnP_cons_eq_if_modifyHead, ih]
      by_cases hd : d = c <;> simp [Piece.view, hd]
    | key number tier value =>
      have hkey : ∀ d ∈ Minter.key suffix number, (d == c) = false := by
        intro d hd
        simp only [beq_eq_false_iff_ne]
        rintro rfl
        exact not_mem_key hs hc number hd
      rw [spell_key_cons, splitOnP_append_of_forall hkey, ih]
      simp [Piece.view]

theorem not_mem_map_view_iff {c : Char} (hc : isKeyChar c = false) (p : Passage) :
    some c ∉ p.map Piece.view ↔ c ∉ spell suffix p := by
  rw [mem_map_view_iff, mem_spell_iff hs hc]

theorem between?_spell {first last : Char} (hf : isKeyChar first = false) (hl : isKeyChar last = false)
    (p : Passage) :
    Shape.between? first last (spell suffix p) = (between? first last p).map (spell suffix) := by
  rcases p with _ | ⟨c | ⟨number, tier, value⟩, p⟩
  · rfl
  · rw [spell_char_cons, Shape.between?, between?]
    rcases List.eq_nil_or_concat p with rfl | ⟨p, piece, rfl⟩
    · simp
    · rw [List.concat_eq_append]
      cases piece with
      | char d =>
        have hfirst := not_mem_map_view_iff hs hf p
        have hlast := not_mem_map_view_iff hs hl p
        simp only [Piece.view, Option.some.injEq, List.getLast?_append, List.getLast?_singleton, spell_append,
          spell_char_cons, spell_nil, List.dropLast_concat, Option.some_or, Option.bind_some, hfirst, hlast]
        split <;> rfl
      | key number tier value =>
        have hno : (spell suffix (p ++ [.key number tier value])).getLast? ≠ some last := by
          rw [spell_append, spell_key_cons, spell_nil, List.append_nil]
          intro h
          have hm : last ∈ Minter.key suffix number := by
            rw [List.getLast?_append_of_ne_nil _ (by simp [Minter.key])] at h
            exact List.mem_of_getLast? h
          exact not_mem_key hs hl number hm
        have hview : ((p ++ [Piece.key number tier value]).getLast?.bind Piece.view) ≠ some last := by
          simp [Piece.view]
        simp only [hno, hview, false_and, and_false, if_false, Option.map_none]
  · have hx : 'x' ≠ first := by
      rintro rfl
      cases hf
    have hview : (Piece.key number tier value).view ≠ some first := by simp [Piece.view]
    rw [spell_key_cons, Minter.key, List.cons_append, List.cons_append, Shape.between?, between?]
    simp only [hx, hview, false_and, if_false, Option.map_none]

omit hs in
theorem cut?_append_of_not_mem {c : Char} {word front : Text} (h : c ∉ front) (text : Text) :
    Text.cut? (c :: word) (front ++ text) =
      (Text.cut? (c :: word) text).map fun (before, after) => (front ++ before, after) := by
  induction front with
  | nil => cases hc : Text.cut? (c :: word) text <;> simp [hc]
  | cons d front ih =>
    have hp : ¬ c :: word <+: d :: (front ++ text) := by
      intro hp
      obtain ⟨rfl, -⟩ := List.cons_prefix_cons.1 hp
      simp at h
    rw [List.cons_append, Text.cut?_cons_of_not_prefix hp, ih (List.not_mem_of_not_mem_cons h)]
    cases Text.cut? (c :: word) text <;> rfl

theorem cut?_spell {word : Text} (hne : word ≠ []) (hw : ∀ c ∈ word, isKeyChar c = false) (p : Passage) :
    Text.cut? word (spell suffix p) = (cut? word p).map (Prod.map (spell suffix) (spell suffix)) := by
  have hx : 'x' ∉ word := fun hm => absurd (hw _ hm) (by decide)
  -- where the word does not begin, a whole piece is passed over
  induction p with
  | nil =>
    obtain ⟨c, word, rfl⟩ := List.exists_cons_of_ne_nil hne
    rfl
  | cons piece p ih =>
    unfold cut?
    by_cases hp : word.map some <+: (piece :: p).map Piece.view
    · obtain ⟨rest, hrest⟩ := map_some_prefix_iff.1 hp
      rw [if_pos hp, hrest, spell_append, spell_ofText, Text.cut?_append_self]
      simp [ofText]
    · have hp' : ¬ word <+: spell suffix (piece :: p) := by
        rintro ⟨rest, hrest⟩
        obtain ⟨q, hq, -⟩ := eq_append_of_spell_eq_append hx hrest.symm
        exact hp (map_some_prefix_iff.2 ⟨q, hq⟩)
      rw [if_neg hp]
      cases piece with
      | char c =>
        rw [spell_char_cons] at hp' ⊢
        rw [Text.cut?_cons_of_not_prefix hp', ih]
        cases cut? word p <;> rfl
      | key number tier value =>
        obtain ⟨c, word, rfl⟩ := List.exists_cons_of_ne_nil hne
        have hc : c ∉ Minter.key suffix number := not_mem_key hs (hw c List.mem_cons_self) number
        rw [spell_key_cons, cut?_append_of_not_mem hc, ih]
        cases cut? (c :: word) p <;> rfl

theorem operands?_spell {word : Text} (hne : word ≠ []) (hw : ∀ c ∈ word, isKeyChar c = false) (p : Passage) :
    Text.operands? word (spell suffix p) = (operands? word p).map (Prod.map (spell suffix) (spell suffix)) := by
  rw [Text.operands?, operands?, cut?_spell hs hne hw]
  cases cut? word p with
  | none => rfl
  | some cut =>
    simp only [Option.map_some, Prod.map, cut?_spell hs hne hw]
    cases cut? word cut.2 <;> rfl

theorem quoted?_spell (p : Passage) :
    Shape.quoted? (spell suffix p) = (quoted? p).map (spell suffix) := by
  rw [Shape.quoted?, quoted?, between?_spell hs rfl rfl, between?_spell hs rfl rfl]
  cases between? '\'' '\'' p <;> rfl

theorem list?_spell (p : Passage) :
    Shape.list? (spell suffix p) = (list? p).map (List.map (spell suffix)) := by
  rw [Shape.list?, list?, between?_spell hs rfl rfl]
  cases between? '[' ']' p with
  | none => rfl
  | some content =>
    simp only [Option.map_some, spell_eq_nil_iff, splitOn_spell hs (show isKeyChar ',' = false from rfl)]
    split
    · rfl
    · simp [trim_spell hs]

theorem comparison?_spell (p : Passage) :
    Shape.comparison? (spell suffix p) = (comparison? p).map (Shape.map (spell suffix)) := by
  have step : ∀ c : Comparison, (Text.operands? c.symbol (spell suffix p)).map
      (fun (left, right) => Shape.comparison c left.trim right.trim) =
        ((operands? c.symbol p).map fun (left, right) =>
          Shape.comparison c (trim left) (trim right)).map (Shape.map (spell suffix)) := by
    intro c
    rw [operands?_spell hs c.symbol_ne_nil c.isKeyChar_of_mem_symbol]
    cases operands? c.symbol p with
    | none => rfl
    | some sides => simp [Shape.map, trim_spell hs]
  rw [Shape.comparison?, comparison?]
  induction Comparison.all with
  | nil => rfl
  | cons c symbols ih =>
    rw [List.findSome?_cons, List.findSome?_cons, step]
    cases (operands? c.symbol p).map fun (left, right) => Shape.comparison c (trim left) (trim right) with
    | none => exact ih
    | some shape => rfl

theorem clauses?_spell (p : Passage) :
    Shape.clauses? (spell suffix p) = (clauses? p).map (Shape.map (spell suffix)) := by
  have hconnective : ∀ c : Connective, isKeyChar c.symbol = false := by
    intro c
    cases c <;> rfl
  have hfind : (fun c : Connective => (spell suffix p).contains c.symbol) =
      fun c : Connective => p.any (·.view = some c.symbol) := by
    funext c
    rw [Bool.eq_iff_iff, List.contains_iff_mem, mem_spell_iff hs (hconnective c), ← mem_map_view_iff]
    simp
  rw [Shape.clauses?, clauses?, hfind]
  cases Connective.all.find? fun c => p.any (·.view = some c.symbol) with
  | none => rfl
  | some c => simp [Shape.map, splitOn_spell hs (hconnective c), trim_spell hs]

end Hex

/-- A spelled passage has the shape of the passage. -/
theorem ofText_spell {suffix : Text} (hs : Suffix.IsHex suffix) (clock : Instant) (p : Passage) :
    Shape.ofText clock (spell suffix p) = (shape clock p).map (spell suffix) := by
  have hnull : spell suffix p = "null".toList ↔ p.text? = some "null".toList := by
    constructor
    · intro h
      cases ht : p.text? with
      | none =>
        have hm := underscore_mem_spell ht suffix
        rw [h] at hm
        exact absurd hm (by decide)
      | some text => rw [← spell_of_text? ht suffix, h]
    · exact fun h => spell_of_text? h suffix
  have hdate : clock.ofRelative? (spell suffix p) = p.text?.bind clock.ofRelative? := by
    cases ht : p.text? with
    | none => exact Instant.ofRelative?_eq_none (by decide) (underscore_mem_spell ht suffix)
    | some text => rw [spell_of_text? ht suffix, Option.bind_some]
  rw [Shape.ofText, shape]
  simp only [hnull, hdate, quoted?_spell hs, list?_spell hs, comparison?_spell hs, clauses?_spell hs]
  by_cases hp : p.text? = some "null".toList
  · rw [if_pos hp, if_pos hp]
    rfl
  · rw [if_neg hp, if_neg hp]
    cases p.text?.bind clock.ofRelative? with
    | some instant => rfl
    | none =>
      cases quoted? p with
      | some content => rfl
      | none =>
        cases list? p with
        | some items => rfl
        | none =>
          cases comparison? p with
          | some shape => rfl
          | none => cases clauses? p <;> rfl

/-! ## Parts stand in the passage -/

theorem infix_trim (p : Passage) : trim p <:+: p := by
  have hfront : ∀ q : Passage, (q.reverse.dropWhile Piece.isBlank).reverse <+: q := by
    intro q
    rw [← List.reverse_suffix, List.reverse_reverse]
    exact List.dropWhile_suffix _
  exact (hfront _).isInfix.trans (List.dropWhile_suffix _).isInfix

theorem infix_of_between? {first last : Char} {p content : Passage} (h : between? first last p = some content) :
    content <:+: p := by
  cases p with
  | nil => cases h
  | cons piece p =>
    rw [between?] at h
    split at h
    · obtain rfl := Option.some.inj h
      exact (List.dropLast_prefix p).isInfix.trans (List.suffix_cons piece p).isInfix
    · cases h

/-- A cut takes the word out of the passage, and nothing else. -/
theorem append_of_cut? {word : Text} {p before after : Passage} (h : cut? word p = some (before, after)) :
    p = before ++ ofText word ++ after := by
  induction p generalizing before with
  | nil => cases h
  | cons piece p ih =>
    unfold cut? at h
    split at h
    · next hp =>
      obtain ⟨rfl, rfl⟩ := Prod.mk.inj (Option.some.inj h)
      obtain ⟨rest, hrest⟩ := map_some_prefix_iff.1 hp
      rw [hrest]
      simp [ofText]
    · obtain ⟨⟨before, after⟩, hc, he⟩ := Option.map_eq_some_iff.1 h
      obtain ⟨rfl, rfl⟩ := Prod.mk.inj he
      rw [ih hc]
      rfl

/-- The sides of a symbol stand in front of its first occurrence and behind it. -/
theorem append_of_operands? {word : Text} {p left right : Passage} (h : operands? word p = some (left, right)) :
    ∃ rest, p = left ++ ofText word ++ rest ∧ right <:+: rest := by
  obtain ⟨⟨before, after⟩, hc, he⟩ := Option.map_eq_some_iff.1 h
  obtain ⟨rfl, rfl⟩ := Prod.mk.inj he
  refine ⟨after, append_of_cut? hc, ?_⟩
  cases hc' : cut? word after with
  | none => exact List.infix_rfl
  | some cut => exact ⟨[], ofText word ++ cut.2, by simp [append_of_cut? hc']⟩

theorem infix_of_operands? {word : Text} {p left right : Passage} (h : operands? word p = some (left, right)) :
    left <:+: p ∧ right <:+: p := by
  obtain ⟨rest, rfl, hright⟩ := append_of_operands? h
  refine ⟨⟨[], ofText word ++ rest, by simp⟩, hright.trans ⟨left ++ ofText word, [], by simp⟩⟩

theorem infix_of_mem_split {c : Char} {p q : Passage} (h : q ∈ (split c p).map trim) : q <:+: p := by
  obtain ⟨x, hx, rfl⟩ := List.mem_map.1 h
  exact (infix_trim x).trans (infix_of_mem_splitOnP hx)

theorem infix_of_quoted? {p content : Passage} (h : quoted? p = some content) : content <:+: p := by
  rw [quoted?, Option.orElse_eq_some] at h
  rcases h with h | ⟨-, h⟩
  · exact infix_of_between? h
  · exact infix_of_between? h

theorem infix_of_list? {p : Passage} {items : List Passage} (h : list? p = some items) :
    ∀ q ∈ items, q <:+: p := by
  obtain ⟨content, hc, rfl⟩ := Option.map_eq_some_iff.1 h
  intro q hq
  split at hq
  · cases hq
  · exact (infix_of_mem_split hq).trans (infix_of_between? hc)

theorem infix_of_comparison? {p q : Passage} {found : Shape Passage} (h : comparison? p = some found)
    (hq : q ∈ found.contents) : q <:+: p := by
  obtain ⟨c, -, hc⟩ := List.exists_of_findSome?_eq_some h
  obtain ⟨⟨left, right⟩, ho, rfl⟩ := Option.map_eq_some_iff.1 hc
  have hside : q = trim left ∨ q = trim right := by simpa [Shape.contents] using hq
  obtain ⟨hleft, hright⟩ := infix_of_operands? ho
  rcases hside with rfl | rfl
  · exact (infix_trim left).trans hleft
  · exact (infix_trim right).trans hright

theorem infix_of_clauses? {p q : Passage} {found : Shape Passage} (h : clauses? p = some found)
    (hq : q ∈ found.contents) : q <:+: p := by
  obtain ⟨c, -, rfl⟩ := Option.map_eq_some_iff.1 h
  exact infix_of_mem_split hq

theorem exists_of_comparison? {p : Passage} {found : Shape Passage} (h : comparison? p = some found) :
    ∃ symbol left right, found = .comparison symbol left right := by
  obtain ⟨symbol, -, hsymbol⟩ := List.exists_of_findSome?_eq_some h
  obtain ⟨sides, -, rfl⟩ := Option.map_eq_some_iff.1 hsymbol
  exact ⟨symbol, _, _, rfl⟩

theorem exists_of_clauses? {p : Passage} {found : Shape Passage} (h : clauses? p = some found) :
    ∃ connective parts, found = .clauses connective parts := by
  obtain ⟨connective, -, rfl⟩ := Option.map_eq_some_iff.1 h
  exact ⟨connective, _, rfl⟩

/-- What is known of a passage that has the shape: the reading that gives it, and of a
scalar that no connective stands in it. -/
def Reads (p : Passage) : Shape Passage → Prop
  | .null => True
  | .date _ => True
  | .quoted content => quoted? p = some content
  | .list items => list? p = some items
  | .comparison symbol left right => comparison? p = some (.comparison symbol left right)
  | .clauses connective parts => clauses? p = some (.clauses connective parts)
  | .scalar text => text = p ∧ clauses? p = none

/-- The shape of a passage is what the first reading that applies gives. -/
theorem reads_shape (clock : Instant) (p : Passage) : Reads p (shape clock p) := by
  unfold shape
  split
  · trivial
  · cases p.text?.bind clock.ofRelative? with
    | some instant => trivial
    | none =>
      cases hquoted : quoted? p with
      | some content => exact hquoted
      | none =>
        cases hlist : list? p with
        | some items => exact hlist
        | none =>
          cases hcomparison : comparison? p with
          | some found =>
            obtain ⟨symbol, left, right, rfl⟩ := exists_of_comparison? hcomparison
            exact hcomparison
          | none =>
            cases hclauses : clauses? p with
            | some found =>
              obtain ⟨connective, parts, rfl⟩ := exists_of_clauses? hclauses
              exact hclauses
            | none => exact ⟨rfl, hclauses⟩

/-- What a shape holds stands in the passage. -/
theorem infix_of_shape {clock : Instant} {p q : Passage} (h : q ∈ (shape clock p).contents) : q <:+: p := by
  have hreads := reads_shape clock p
  generalize shape clock p = found at h hreads
  cases found with
  | null => cases h
  | date instant => cases h
  | quoted content =>
    obtain rfl := List.mem_singleton.1 h
    exact infix_of_quoted? hreads
  | list items => exact infix_of_list? hreads q h
  | comparison symbol left right => exact infix_of_comparison? hreads h
  | clauses connective parts => exact infix_of_clauses? hreads h
  | scalar text =>
    obtain rfl := List.mem_singleton.1 h
    exact hreads.1 ▸ List.infix_rfl

end Passage

end FilterQuery
