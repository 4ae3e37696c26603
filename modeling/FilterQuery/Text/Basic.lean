/-!
# Text

Text is a list of characters, so that scanning it is recursion on the list. The
one search of the library is `cut?`, which finds the first occurrence of a word;
`replaceFirst` and `operands?` are stated by it.

`append_of_cut?` says that a cut loses nothing.
-/

namespace FilterQuery

/-- Text as the scanner sees it. -/
abbrev Text := List Char

namespace Text

/-- What stands before and after the first occurrence of a word. -/
def cut? (word : Text) : Text → Option (Text × Text)
  | [] => (word.isPrefixOf? []).map ([], ·)
  | c :: text =>
    match word.isPrefixOf? (c :: text) with
    | some after => some ([], after)
    | none => (cut? word text).map fun (before, after) => (c :: before, after)

/-- Some part of the text is the word. -/
def occurs (word text : Text) : Bool := (cut? word text).isSome

/-- The text with the first occurrence of `old` replaced; text without one is
left as it is. -/
def replaceFirst (text old new : Text) : Text :=
  match cut? old text with
  | some (before, after) => before ++ new ++ after
  | none => text

/-- What stands left of the first occurrence of a symbol, and right of it up to
the second. -/
def operands? (symbol text : Text) : Option (Text × Text) :=
  (cut? symbol text).map fun (left, rest) => (left, ((cut? symbol rest).map (·.1)).getD rest)

/-- The text between a first and a last character. -/
def interior (text : Text) : Text := text.tail.dropLast

theorem nil_isPrefixOf? (text : Text) : List.isPrefixOf? [] text = some text := rfl

theorem cons_isPrefixOf?_cons (w c : Char) (word text : Text) :
    (w :: word).isPrefixOf? (c :: text) = if w == c then word.isPrefixOf? text else none := rfl

theorem append_of_isPrefixOf? {word text after : Text} (h : word.isPrefixOf? text = some after) :
    text = word ++ after := by
  induction word generalizing text with
  | nil =>
    rw [nil_isPrefixOf?, Option.some.injEq] at h
    exact h
  | cons w word ih =>
    cases text with
    | nil => cases h
    | cons c text =>
      rw [cons_isPrefixOf?_cons] at h
      split at h
      · next hw => rw [ih h, beq_iff_eq.1 hw]; rfl
      · cases h

theorem append_of_cut? {word text before after : Text} (h : cut? word text = some (before, after)) :
    text = before ++ word ++ after := by
  induction text generalizing before with
  | nil =>
    simp only [cut?, Option.map_eq_some_iff] at h
    obtain ⟨rest, hr, he⟩ := h
    rw [append_of_isPrefixOf? hr]
    simp_all
  | cons c text ih =>
    simp only [cut?] at h
    split at h
    · next rest hr => rw [append_of_isPrefixOf? hr]; simp_all
    · obtain ⟨⟨b, a⟩, hp, he⟩ := Option.map_eq_some_iff.1 h
      obtain ⟨rfl, rfl⟩ := Prod.mk.injEq .. ▸ he
      rw [ih hp]
      rfl

end Text

end FilterQuery
