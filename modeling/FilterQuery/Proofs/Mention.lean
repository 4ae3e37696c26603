import FilterQuery.FieldName
import FilterQuery.Proofs.Passage.Basic
/-!
# Keys in trees and in their texts

`Node.Mentions` says that a word stands in a string or a field name of a tree. A key
stands in the JSON text of a tree, or in the field name that the tree gives, only if
the tree mentions it: what JSON text puts around and between strings are characters
that keys do not have.
-/

namespace FilterQuery

/-- A string or a name in the value has the word in it. -/
inductive Json.Mentions (word : Text) : Json → Prop where
  | string {s : String} (h : word <:+: s.toList) : Mentions word (.string s)
  | item {items : List Json} {item : Json} (hm : item ∈ items) (h : Mentions word item) :
      Mentions word (.array items)
  | name {members : List (String × Json)} {name : String} {value : Json} (hm : (name, value) ∈ members)
      (h : word <:+: name.toList) : Mentions word (.object members)
  | member {members : List (String × Json)} {name : String} {value : Json} (hm : (name, value) ∈ members)
      (h : Mentions word value) : Mentions word (.object members)

/-- A string or a field name in the tree has the word in it. -/
inductive Node.Mentions (word : Text) : Node → Prop where
  | string {s : String} (h : word <:+: s.toList) : Mentions word (.string s)
  | item {items : List Node} {item : Node} (hm : item ∈ items) (h : Mentions word item) :
      Mentions word (.list items)
  | name {entries : List (Key × Node)} {name : String} {value : Node} (hm : (.field name, value) ∈ entries)
      (h : word <:+: name.toList) : Mentions word (.object entries)
  | value {entries : List (Key × Node)} {key : Key} {value : Node} (hm : (key, value) ∈ entries)
      (h : Mentions word value) : Mentions word (.object entries)

theorem sizeOf_snd_lt_of_mem {α β : Type} [SizeOf α] [SizeOf β] {pair : α × β} {l : List (α × β)}
    (h : pair ∈ l) : sizeOf pair.2 < 1 + sizeOf l := by
  have hpair : sizeOf pair = 1 + sizeOf pair.1 + sizeOf pair.2 := by
    cases pair
    rfl
  have hl := List.sizeOf_lt_of_mem h
  omega

/-- Induction over the values in a JSON value. -/
theorem Json.induction {motive : Json → Prop} (null : motive .null) (bool : ∀ b, motive (.bool b))
    (number : ∀ n, motive (.number n)) (string : ∀ s, motive (.string s))
    (array : ∀ items, (∀ item ∈ items, motive item) → motive (.array items))
    (object : ∀ members, (∀ member ∈ members, motive member.2) → motive (.object members)) :
    ∀ json, motive json
  | .null => null
  | .bool b => bool b
  | .number n => number n
  | .string s => string s
  | .array items => array items fun item _ => Json.induction null bool number string array object item
  | .object members => object members fun member hm =>
    have _ := sizeOf_snd_lt_of_mem hm
    Json.induction null bool number string array object member.2

/-- Induction over the trees in a tree. -/
theorem Node.induction {motive : Node → Prop} (null : motive .null) (bool : ∀ b, motive (.bool b))
    (number : ∀ n, motive (.number n)) (string : ∀ s, motive (.string s)) (date : ∀ d, motive (.date d))
    (list : ∀ items, (∀ item ∈ items, motive item) → motive (.list items))
    (object : ∀ entries, (∀ entry ∈ entries, motive entry.2) → motive (.object entries)) :
    ∀ node, motive node
  | .null => null
  | .bool b => bool b
  | .number n => number n
  | .string s => string s
  | .date d => date d
  | .list items => list items fun item _ => Node.induction null bool number string date list object item
  | .object entries => object entries fun entry hm =>
    have _ := sizeOf_snd_lt_of_mem hm
    Node.induction null bool number string date list object entry.2

/-! ## Characters of written numbers and dates -/

theorem underscore_not_mem_ofNat (n : Nat) : '_' ∉ Text.ofNat n := Nat.underscore_not_in_toDigits

theorem underscore_not_mem_ofNatPadded (width n : Nat) : '_' ∉ Text.ofNatPadded width n := by
  simp [Text.ofNatPadded, underscore_not_mem_ofNat]

theorem underscore_not_mem_ofInt (n : Int) : '_' ∉ Text.ofInt n := by
  unfold Text.ofInt
  split <;> simp [underscore_not_mem_ofNat]

theorem underscore_not_mem_toText (instant : Instant) : '_' ∉ instant.toText := by
  have hyear : '_' ∉ Instant.yearText instant.date.year := by
    unfold Instant.yearText
    split
    · simp [underscore_not_mem_ofNatPadded]
    · split
      · simp [underscore_not_mem_ofNat]
      · exact underscore_not_mem_ofNatPadded _ _
  simp [Instant.toText, hyear, underscore_not_mem_ofNatPadded]

theorem underscore_not_mem_take (n count : Nat) : '_' ∉ (Text.ofNat n).take count :=
  fun hm => underscore_not_mem_ofNat n (List.mem_of_mem_take hm)

theorem underscore_not_mem_drop (n count : Nat) : '_' ∉ (Text.ofNat n).drop count :=
  fun hm => underscore_not_mem_ofNat n (List.mem_of_mem_drop hm)

theorem underscore_not_mem_positional (whole : Bool) (d : Decimal) : '_' ∉ d.positional whole := by
  simp only [Decimal.positional]
  split
  · simp only [List.mem_append, not_or]
    exact ⟨⟨underscore_not_mem_ofNat _, by simp [List.mem_replicate]⟩, by split <;> simp⟩
  · split
    · simp [underscore_not_mem_take, underscore_not_mem_drop]
    · simp [underscore_not_mem_ofNat, List.mem_replicate]

theorem underscore_not_mem_scientific (d : Decimal) : '_' ∉ d.scientific := by
  simp only [Decimal.scientific, List.mem_append, List.mem_cons, not_or]
  refine ⟨⟨underscore_not_mem_take _ _, ?_⟩, by decide, ?_, underscore_not_mem_ofNat _⟩
  · split
    · simp
    · exact List.not_mem_cons_of_ne_of_not_mem (by decide) (underscore_not_mem_drop _ _)
  · split <;> decide

theorem underscore_not_mem_write (layout : Layout) (negative : Bool) (code : Nat) :
    '_' ∉ layout.write negative code := by
  unfold Layout.write
  simp only [List.mem_append, not_or]
  refine ⟨by split <;> simp, ?_⟩
  split
  · exact underscore_not_mem_positional _ _
  · split
    · exact underscore_not_mem_positional _ _
    · exact underscore_not_mem_scientific _

/-! ## Keys in JSON text -/

/-- A word stands behind characters that its first one is not among. -/
theorem infix_of_append_of_not_mem {α : Type} {a : α} {w l r : List α} (ha : a ∉ l) (h : a :: w <:+: l ++ r) :
    a :: w <:+: r := by
  induction l with
  | nil => exact h
  | cons b l ih =>
    obtain ⟨hb, hl⟩ := List.ne_and_not_mem_of_not_mem_cons ha
    rcases List.infix_cons_iff.1 h with h | h
    · exact absurd (List.cons_prefix_cons.1 h).1 hb
    · exact ih hl h

section Key
variable {suffix : Text} {n : Nat}

theorem not_infix_key {text : Text} (h : '_' ∉ text) : ¬ Minter.key suffix n <:+: text :=
  fun hk => h (hk.subset (by simp [Minter.key]))

section Hex
variable (hs : Suffix.IsHex suffix)
include hs

namespace Json

omit hs in
theorem escape_of_isKeyChar {c : Char} (hc : isKeyChar c = true) : escape c = [c] := by
  have hn := toNat_of_isKeyChar hc
  have hne : ∀ d : Char, d.toNat < 48 ∨ d.toNat = 92 → c ≠ d := by
    rintro d hd rfl
    omega
  have hprintable : ¬ c.toNat < 0x20 := by omega
  rw [escape, if_neg (hne _ (by decide)), if_neg (hne _ (by decide)), if_neg (hne _ (by decide)),
    if_neg (hne _ (by decide)), if_neg (hne _ (by decide)), if_neg (hne _ (by decide)),
    if_neg (hne _ (by decide)), if_neg hprintable]

omit hs in
/-- A character stands for itself, or for a backslash and marks that begin no key. -/
theorem escape_cases (c : Char) : escape c = [c] ∨ ∃ marks, escape c = '\\' :: marks ∧ 'x' ∉ marks := by
  have hdigit : ∀ k < 16, 'x' ≠ hexDigit k := by decide
  unfold escape
  split
  · exact .inr ⟨_, rfl, by decide⟩
  split
  · exact .inr ⟨_, rfl, by decide⟩
  split
  · exact .inr ⟨_, rfl, by decide⟩
  split
  · exact .inr ⟨_, rfl, by decide⟩
  split
  · exact .inr ⟨_, rfl, by decide⟩
  split
  · exact .inr ⟨_, rfl, by decide⟩
  split
  · exact .inr ⟨_, rfl, by decide⟩
  split
  · have hhigh := hdigit (c.toNat / 16) (by omega)
    have hlow := hdigit (c.toNat % 16) (by omega)
    exact .inr ⟨_, rfl, by simp [hhigh, hlow]⟩
  · exact .inl rfl

omit hs in
theorem prefix_of_prefix_escape {word text : Text} (hw : '\\' ∉ word) (h : word <+: text.flatMap escape) :
    word <+: text := by
  induction word generalizing text with
  | nil => exact List.nil_prefix
  | cons c word ih =>
    obtain ⟨hc, hw⟩ := List.ne_and_not_mem_of_not_mem_cons hw
    cases text with
    | nil => simp at h
    | cons d text =>
      rw [List.flatMap_cons] at h
      rcases escape_cases d with hd | ⟨marks, hd, -⟩
      · rw [hd, List.singleton_append] at h
        obtain ⟨rfl, htail⟩ := List.cons_prefix_cons.1 h
        exact List.cons_prefix_cons.2 ⟨rfl, ih hw htail⟩
      · rw [hd, List.cons_append] at h
        exact absurd (List.cons_prefix_cons.1 h).1.symm hc

/-- Keys are not escaped, and what is escaped gives no key. -/
theorem key_infix_escape_iff (text : Text) :
    Minter.key suffix n <:+: text.flatMap escape ↔ Minter.key suffix n <:+: text := by
  have hbackslash : '\\' ∉ Minter.key suffix n := not_mem_key hs rfl n
  constructor
  · intro h
    -- a key starts with its `x`, which no escape has, so it starts behind an escaped character
    induction text with
    | nil => simpa using h
    | cons c text ih =>
      rw [List.flatMap_cons] at h
      rcases escape_cases c with hc | ⟨marks, hc, hx⟩
      · rw [hc, List.singleton_append] at h
        rcases List.infix_cons_iff.1 h with h | h
        · refine (prefix_of_prefix_escape hbackslash ?_).isInfix
          rwa [List.flatMap_cons, hc, List.singleton_append]
        · exact (ih h).trans (List.suffix_cons c text).isInfix
      · rw [hc] at h
        have hx' : 'x' ∉ '\\' :: marks := List.not_mem_cons_of_ne_of_not_mem (by decide) hx
        exact (ih (infix_of_append_of_not_mem hx' h)).trans (List.suffix_cons c text).isInfix
  · rintro ⟨u, v, rfl⟩
    have hkey : (Minter.key suffix n).flatMap escape = Minter.key suffix n := by
      have hplain : ∀ c ∈ Minter.key suffix n, escape c = [c] :=
        fun c hc => escape_of_isKeyChar (isKeyChar_of_mem_key hs hc)
      rw [List.flatMap_def, List.map_congr_left hplain, ← List.flatMap_def, List.flatMap_singleton']
    exact ⟨u.flatMap escape, v.flatMap escape, by simp [hkey]⟩

theorem key_infix_quote_iff (s : String) :
    Minter.key suffix n <:+: quote s ↔ Minter.key suffix n <:+: s.toList := by
  rw [← key_infix_escape_iff hs s.toList]
  constructor
  · intro h
    rcases key_infix_append_cons hs rfl (key_infix_cons hs rfl h) with h | h
    · exact h
    · simp [Minter.key] at h
  · rintro ⟨u, v, h⟩
    exact ⟨'"' :: u, v ++ ['"'], by simp [quote, ← h]⟩

/-- A key in the text of items stands in one of them. -/
theorem key_infix_items {items : List Json} (ih : ∀ item ∈ items, ∀ depth,
      Minter.key suffix n <:+: write compactStyle depth item → item.Mentions (Minter.key suffix n))
    {item : Json} {depth : Nat}
    (hitem : Minter.key suffix n <:+: write compactStyle depth item → item.Mentions (Minter.key suffix n))
    (h : Minter.key suffix n <:+: write compactStyle depth item ++ (writeItems compactStyle depth items ++ [']'])) :
    ∃ other ∈ item :: items, other.Mentions (Minter.key suffix n) := by
  -- a mark that no key has stands behind each item
  induction items generalizing item with
  | nil =>
    rcases key_infix_append_cons hs rfl h with h | h
    · exact ⟨item, List.mem_cons_self, hitem h⟩
    · simp [Minter.key] at h
  | cons next items rest =>
    simp only [writeItems, compactStyle, List.nil_append, List.cons_append, List.append_assoc] at h
    rcases key_infix_append_cons hs rfl h with h | h
    · exact ⟨item, List.mem_cons_self, hitem h⟩
    · obtain ⟨other, hm, ho⟩ := rest (fun other hm => ih other (List.mem_cons_of_mem _ hm))
        (ih next List.mem_cons_self depth) h
      exact ⟨other, List.mem_cons_of_mem _ hm, ho⟩

/-- A key in the text of members stands in a name or a value of them. -/
theorem key_infix_members {members : List (String × Json)} (ih : ∀ member ∈ members, ∀ depth,
      Minter.key suffix n <:+: write compactStyle depth member.2 → member.2.Mentions (Minter.key suffix n))
    {name : String} {value : Json} {depth : Nat}
    (hvalue : Minter.key suffix n <:+: write compactStyle depth value → value.Mentions (Minter.key suffix n))
    (h : Minter.key suffix n <:+: quote name ++ ':' :: (write compactStyle depth value ++
      (writeMembers compactStyle depth members ++ ['\x7d']))) :
    (object ((name, value) :: members)).Mentions (Minter.key suffix n) := by
  induction members generalizing name value with
  | nil =>
    rcases key_infix_append_cons hs rfl h with h | h
    · exact .name List.mem_cons_self ((key_infix_quote_iff hs name).1 h)
    rcases key_infix_append_cons hs rfl h with h | h
    · exact .member List.mem_cons_self (hvalue h)
    · simp [Minter.key] at h
  | cons next members rest =>
    rcases key_infix_append_cons hs rfl h with h | h
    · exact .name List.mem_cons_self ((key_infix_quote_iff hs name).1 h)
    simp only [writeMembers, compactStyle, List.nil_append, List.cons_append, List.append_assoc] at h
    rcases key_infix_append_cons hs rfl h with h | h
    · exact .member List.mem_cons_self (hvalue h)
    have hrest := rest (fun member hm => ih member (List.mem_cons_of_mem _ hm))
      (ih next List.mem_cons_self depth) h
    cases hrest with
    | name hm hk => exact .name (List.mem_cons_of_mem _ hm) hk
    | member hm hk => exact .member (List.mem_cons_of_mem _ hm) hk

/-- A key in the compact text of a value stands in a string or a name of it. -/
theorem mentions_of_write {json : Json} {depth : Nat}
    (h : Minter.key suffix n <:+: write compactStyle depth json) : json.Mentions (Minter.key suffix n) := by
  induction json using Json.induction generalizing depth with
  | null => exact absurd h (not_infix_key (by simp [write]))
  | bool b => cases b <;> exact absurd h (not_infix_key (by simp [write]))
  | number number =>
    refine absurd h (not_infix_key ?_)
    unfold write
    unfold numberText
    split
    · exact underscore_not_mem_ofInt _
    · exact underscore_not_mem_write _ _ _
    · decide
  | string s =>
    unfold write at h
    exact .string ((key_infix_quote_iff hs s).1 h)
  | array items ih =>
    cases items with
    | nil => exact absurd h (not_infix_key (by simp [write]))
    | cons item items =>
      simp only [write, compactStyle, List.nil_append, List.append_nil, List.append_assoc] at h
      obtain ⟨other, hm, ho⟩ := key_infix_items hs (fun other hm _ => ih other (List.mem_cons_of_mem _ hm))
        (ih item List.mem_cons_self) (key_infix_cons hs rfl h)
      exact .item hm ho
  | object members ih =>
    cases members with
    | nil => exact absurd h (not_infix_key (by simp [write]))
    | cons member members =>
      simp only [write, compactStyle, List.nil_append, List.append_nil, List.append_assoc,
        List.singleton_append] at h
      exact key_infix_members hs (fun other hm _ => ih other (List.mem_cons_of_mem _ hm))
        (ih member List.mem_cons_self) (key_infix_cons hs rfl h)

omit hs in
theorem mem_insertMember {name : String} {value : Json} {members : List (String × Json)} {member : String × Json}
    (h : member ∈ insertMember name value members) : member = (name, value) ∨ member ∈ members := by
  induction members with
  | nil => simpa [insertMember] using h
  | cons other members ih =>
    unfold insertMember at h
    split at h
    · simpa using h
    · split at h
      · rcases List.mem_cons.1 h with h | h
        · exact .inl h
        · exact .inr (List.mem_cons_of_mem _ h)
      · rcases List.mem_cons.1 h with h | h
        · exact .inr (h ▸ List.mem_cons_self)
        · exact (ih h).imp_right (List.mem_cons_of_mem _)

omit hs in
theorem mem_foldl_insertMember {members placed : List (String × Json)} {member : String × Json}
    (h : member ∈ members.foldl (fun placed member => insertMember member.1 member.2 placed) placed) :
    member ∈ placed ∨ member ∈ members := by
  induction members generalizing placed with
  | nil => exact .inl h
  | cons first members ih =>
    rcases ih h with h | h
    · rcases mem_insertMember h with rfl | h
      · exact .inr List.mem_cons_self
      · exact .inl h
    · exact .inr (List.mem_cons_of_mem _ h)

omit hs in
/-- An object has no member that it was not built of. -/
theorem Mentions.of_ofMembers {word : Text} {members : List (String × Json)}
    (h : (ofMembers members).Mentions word) : (object members).Mentions word := by
  cases h with
  | name hm hk => exact .name ((mem_foldl_insertMember hm).resolve_left List.not_mem_nil) hk
  | member hm hk => exact .member ((mem_foldl_insertMember hm).resolve_left List.not_mem_nil) hk

end Json

namespace Node

omit hs in
theorem itemsToJson_eq_map (dialect : Dialect) (items : List Node) :
    itemsToJson dialect items = items.map (toJson dialect) := by
  induction items with
  | nil => rfl
  | cons item items ih => rw [itemsToJson, ih, List.map_cons]

omit hs in
theorem entriesToJson_eq_map (dialect : Dialect) (entries : List (Key × Node)) :
    entriesToJson dialect entries =
      entries.map fun entry => dialect.member entry.1 entry.2 (toJson dialect entry.2) := by
  induction entries with
  | nil => rfl
  | cons entry entries ih => rw [entriesToJson, ih, List.map_cons]

omit hs in
theorem member_plain (key : Key) (value : Node) (json : Json) :
    (Dialect.plain.member key value json).2 = json := by
  cases key <;> rfl

omit hs in
theorem not_infix_key_name (op : Operator) : ¬ Minter.key suffix n <:+: op.name.toList :=
  not_infix_key (by cases op <;> decide)

omit hs in
/-- A key in the plain JSON value of a tree stands in the tree. -/
theorem mentions_of_toJson {node : Node} (h : (node.toJson .plain).Mentions (Minter.key suffix n)) :
    node.Mentions (Minter.key suffix n) := by
  induction node using Node.induction with
  | null => cases h
  | bool b => cases h
  | number number =>
    cases number with
    | integer value => cases h
    | real value =>
      rw [toJson, Number.toJson] at h
      split at h <;> cases h
  | string s =>
    cases h with
    | string h => exact .string h
  | date instant =>
    cases h with
    | string h => exact absurd h (not_infix_key (by simpa using underscore_not_mem_toText instant))
  | list items ih =>
    rw [toJson, itemsToJson_eq_map] at h
    cases h with
    | item hm h =>
      obtain ⟨item, hitem, rfl⟩ := List.mem_map.1 hm
      exact .item hitem (ih item hitem h)
  | object entries ih =>
    rw [toJson, entriesToJson_eq_map] at h
    cases Json.Mentions.of_ofMembers h with
    | name hm hk =>
      obtain ⟨⟨key, value⟩, hentry, he⟩ := List.mem_map.1 hm
      cases key with
      | field field =>
        obtain ⟨rfl, -⟩ := Prod.mk.inj he
        exact .name hentry hk
      | operator op =>
        obtain ⟨rfl, -⟩ := Prod.mk.inj he
        exact absurd hk (not_infix_key_name op)
    | member hm hv =>
      obtain ⟨⟨key, value⟩, hentry, he⟩ := List.mem_map.1 hm
      have hv' := congrArg Prod.snd he
      rw [member_plain] at hv'
      subst hv'
      exact .value hentry (ih _ hentry hv)

/-- A key in the field name that a tree gives stands in the tree. -/
theorem mentions_of_fieldName {node : Node} (h : Minter.key suffix n <:+: node.fieldName.toList) :
    node.Mentions (Minter.key suffix n) := by
  have hcompact : ∀ node : Node, Minter.key suffix n <:+: (node.compact .plain).toList →
      node.Mentions (Minter.key suffix n) := by
    intro node h
    rw [compact, Json.compact, String.toList_ofList] at h
    exact mentions_of_toJson (Json.mentions_of_write hs h)
  cases node with
  | null => exact absurd h (not_infix_key (by decide))
  | bool b => cases b <;> exact absurd h (not_infix_key (by decide))
  | number number =>
    refine absurd h (not_infix_key ?_)
    cases number with
    | integer value => simpa [fieldName] using underscore_not_mem_ofInt value
    | real value =>
      cases value with
      | nan => decide
      | infinite negative => cases negative <;> decide
      | finite negative code => simpa [fieldName, Double.fieldText] using underscore_not_mem_write _ _ _
  | string s => exact .string h
  | date instant => exact absurd h (not_infix_key (by simpa [fieldName] using underscore_not_mem_toText instant))
  | list items => exact hcompact (.list items) h
  | object entries => exact hcompact (.object entries) h

end Node

end Hex

end Key

end FilterQuery
