import FilterQuery.Proofs.Structure
/-!
# Fields at the ceiling

The operands of a comparison are compiled one level below it. A comparison on the last level
that is compiled thus keeps its place in the tree and loses its operands, and the field
that is left is that of null: `Filter.fields_tree` says which fields a written filter has
when it is compiled, however deep its comparisons stand.
-/

namespace FilterQuery

open Passage

/-! ## Fields of trees -/

/-- The name of the field that a key is, if it is one. -/
def Key.field? : Key → Option String
  | field name => some name
  | operator _ => none

namespace Node

mutual

/-- The names of the fields in a tree, from left to right. -/
def fields : Node → List String
  | null => []
  | bool _ => []
  | number _ => []
  | string _ => []
  | date _ => []
  | list items => fieldsOfItems items
  | object entries => fieldsOfEntries entries

/-- The names of the fields in trees. -/
def fieldsOfItems : List Node → List String
  | [] => []
  | item :: items => fields item ++ fieldsOfItems items

/-- The names of the fields in the entries of an object. -/
def fieldsOfEntries : List (Key × Node) → List String
  | [] => []
  | (key, value) :: entries => key.field?.toList ++ fields value ++ fieldsOfEntries entries

end

theorem fieldsOfItems_eq_flatMap (items : List Node) : fieldsOfItems items = items.flatMap fields := by
  induction items with
  | nil => rw [fieldsOfItems, List.flatMap_nil]
  | cons item items ih => rw [fieldsOfItems, ih, List.flatMap_cons]

@[simp]
theorem fields_list (items : List Node) : (list items).fields = items.flatMap fields := by
  rw [fields, fieldsOfItems_eq_flatMap]

@[simp]
theorem fields_ofField (name : String) (value : Node) : (ofField name value).fields = name :: value.fields := by
  simp [ofField, fields, fieldsOfEntries, Key.field?]

@[simp]
theorem fields_ofOperator (op : Operator) (value : Node) : (ofOperator op value).fields = value.fields := by
  simp [ofOperator, fields, fieldsOfEntries, Key.field?]

/-- Operators hide no field. -/
@[simp]
theorem fields_constraint (symbol : Comparison) (value : Node) : (symbol.constraint value).fields = value.fields := by
  cases symbol with
  | equal =>
    rw [Comparison.constraint]
    split
    · exact fields_ofOperator _ _
    · rfl
  | strictEqual => rfl
  | regexInsensitive => simp [Comparison.constraint, fields, fieldsOfEntries, Key.field?]
  | _ => exact fields_ofOperator _ _

theorem fields_of_isClause_eq_false {node : Node} (h : node.isClause = false) : node.fields = [] := by
  cases node with
  | date instant => cases h
  | list items => cases h
  | object entries => cases h
  | _ => rw [fields]

/-- Only parts without fields are no clauses. -/
@[simp]
theorem fields_ofClauses (connective : Connective) (parts : List Node) :
    (ofClauses connective parts).fields = parts.flatMap fields := by
  rw [ofClauses, fields_ofOperator, fields_list]
  induction parts with
  | nil => rfl
  | cons part parts ih =>
    rw [List.flatMap_cons, ← ih]
    cases h : part.isClause with
    | true => rw [List.filter_cons_of_pos h, List.flatMap_cons]
    | false => rw [List.filter_cons_of_neg (by simp [h]), fields_of_isClause_eq_false h, List.nil_append]

@[simp]
theorem fields_ofScalar (text : Text) : (ofScalar text).fields = [] := by
  rcases ofScalar_cases text with h | ⟨b, h⟩ | ⟨n, -, h⟩ | ⟨instant, -, h⟩ | h <;> rw [h, fields]

end Node

/-- No operand has a field. -/
@[simp]
theorem Operand.fields_nodeWithin (clock : Instant) (operand : Operand) (levels : Nat) :
    (operand.nodeWithin clock levels).fields = [] := by
  cases levels with
  | zero => rw [nodeWithin, Node.descend, Node.fields]
  | succ levels =>
    rw [nodeWithin, Node.descend]
    cases operand with
    | word text hne h =>
      rw [node]
      split
      · rw [Node.fields]
      · cases clock.ofRelative? text <;> simp [Node.fields]
    | single content h => rw [node, Node.fields]
    | double content h => rw [node, Node.fields]

/-- No value has a field. -/
@[simp]
theorem Value.fields_nodeWithin (clock : Instant) (value : Value) (levels : Nat) :
    (value.nodeWithin clock levels).fields = [] := by
  cases value with
  | operand operand => exact operand.fields_nodeWithin clock levels
  | list items =>
    cases levels with
    | zero => rw [nodeWithin, Node.descend, Node.fields]
    | succ levels => simp [nodeWithin, Node.descend, List.flatMap_map]

/-! ## Fields of filters -/

/-- The fields of what is joined. One part is not joined to any other. -/
def joinedFields : List (List (Nat × String)) → List (Nat × String)
  | [fields] => fields
  | parts => parts.flatten.map fun (depth, name) => (depth + 1, name)

mutual

/-- The fields of the alternatives of a filter. -/
def Filter.fieldLists (clock : Instant) : Filter → List (List (Nat × String))
  | .last alternative => [joinedFields (alternative.fieldLists clock)]
  | .more alternative filter => joinedFields (alternative.fieldLists clock) :: filter.fieldLists clock

/-- The fields of the clauses of an alternative. -/
def Alternative.fieldLists (clock : Instant) : Alternative → List (List (Nat × String))
  | .last clause => [clause.fields clock]
  | .more clause alternative => clause.fields clock :: alternative.fieldLists clock

/-- The names of the fields that are compared, from left to right, each with the number of
joined alternatives and clauses that stand around its comparison. -/
def Clause.fields (clock : Instant) : Clause → List (Nat × String)
  | .comparison field _ _ => [(0, (field.node clock).fieldName)]
  | .group filter => joinedFields (filter.fieldLists clock)

end

/-- The names of the fields that are compared, from left to right, each with the number of
joined alternatives and clauses that stand around its comparison. -/
def Filter.fields (clock : Instant) (filter : Filter) : List (Nat × String) :=
  joinedFields (filter.fieldLists clock)

/-! ## What is left of a field -/

/-- The name that a field has with a number of levels to go, if it is left. -/
def fieldWithin? (levels : Nat) : Nat × String → Option String
  | (depth, name) => if depth + 1 < levels then some name else if depth + 1 = levels then some "null" else none

theorem fieldWithin?_zero (fields : List (Nat × String)) : fields.filterMap (fieldWithin? 0) = [] := by
  simp [List.filterMap_eq_nil_iff, fieldWithin?]

theorem fieldWithin?_succ (levels depth : Nat) (name : String) :
    fieldWithin? (levels + 1) (depth + 1, name) = fieldWithin? levels (depth, name) := by
  simp [fieldWithin?]

/-- The fields that are left of a tree at any number of levels. -/
def Keeps (node : Nat → Node) (fields : List (Nat × String)) : Prop :=
  ∀ levels, (node levels).fields = fields.filterMap (fieldWithin? levels)

/-- A comparison on the last level has the field null. -/
theorem keeps_comparison (clock : Instant) (field : Operand) (symbol : Comparison) (value : Value) :
    Keeps (symbol.nodeWithin (field.nodeWithin clock) (value.nodeWithin clock)) [(0, (field.node clock).fieldName)] := by
  rintro (_ | _ | levels)
  · rw [fieldWithin?_zero, Comparison.nodeWithin, Node.descend, Node.fields]
  · simp [Comparison.nodeWithin, Operand.nodeWithin, Node.descend, fieldWithin?, Node.fieldName]
  · simp [Comparison.nodeWithin, Operand.nodeWithin, Node.descend, fieldWithin?]

/-- What is joined is compiled one level deeper. -/
theorem keeps_joined {nodes : List (Nat → Node)} {lists : List (List (Nat × String))}
    (h : List.Forall₂ Keeps nodes lists) (connective : Connective) :
    Keeps (.joinedWithin connective nodes) (joinedFields lists) := by
  have hdescend : Keeps (.descend fun levels => .ofClauses connective (nodes.map (· levels)))
      (lists.flatten.map fun (depth, name) => (depth + 1, name)) := by
    rintro (_ | levels)
    · rw [fieldWithin?_zero, Node.descend, Node.fields]
    · rw [Node.descend, Node.fields_ofClauses, List.flatMap_map, List.filterMap_map]
      have hshift : fieldWithin? (levels + 1) ∘ (fun (depth, name) => (depth + 1, name)) = fieldWithin? levels :=
        funext fun (depth, name) => fieldWithin?_succ levels depth name
      rw [hshift]
      induction h with
      | nil => rfl
      | cons hnode _ ih => rw [List.flatMap_cons, List.flatten_cons, List.filterMap_append, hnode levels, ih]
  cases h with
  | nil => exact hdescend
  | cons hnode hrest =>
    cases hrest with
    | nil => exact hnode
    | cons _ _ => exact hdescend

mutual

theorem Filter.keeps_nodesWithin (clock : Instant) : ∀ filter : Filter,
    List.Forall₂ Keeps (filter.nodesWithin clock) (filter.fieldLists clock)
  | .last alternative => .cons (keeps_joined (alternative.keeps_nodesWithin clock) .and) .nil
  | .more alternative filter =>
    .cons (keeps_joined (alternative.keeps_nodesWithin clock) .and) (filter.keeps_nodesWithin clock)

theorem Alternative.keeps_nodesWithin (clock : Instant) : ∀ alternative : Alternative,
    List.Forall₂ Keeps (alternative.nodesWithin clock) (alternative.fieldLists clock)
  | .last clause => .cons (clause.keeps_nodeWithin clock) .nil
  | .more clause alternative => .cons (clause.keeps_nodeWithin clock) (alternative.keeps_nodesWithin clock)

theorem Clause.keeps_nodeWithin (clock : Instant) : ∀ clause : Clause,
    Keeps (clause.nodeWithin clock) (clause.fields clock)
  | .comparison field symbol value => keeps_comparison clock field symbol value
  | .group filter => keeps_joined (filter.keeps_nodesWithin clock) .or

end

namespace Filter

/-- A written filter has the fields of its comparisons, in their order, down to the ceiling.
A comparison at the ceiling itself has the field null instead, which is no field of the
filter, and below the ceiling no comparison is left. -/
theorem fields_tree (filter : Filter) {suffix text : Text} (clock : Instant)
    (htext : Text.Spaced (filter.tokens.map Token.text) text) (hs : Suffix.Admissible text suffix)
    (hnull : ∀ field ∈ filter.fields clock, field.2 ≠ "null") :
    let tree := (Tokenized.ofText suffix text).tree clock
    tree.fields = (filter.fields clock).filterMap (fun (depth, name) =>
        if depth < defaultCeiling then some name else if depth = defaultCeiling then some "null" else none) ∧
      ((∀ name ∈ tree.fields, ∃ field ∈ filter.fields clock, name = field.2) ↔
        ∀ field ∈ filter.fields clock, field.1 ≠ defaultCeiling) := by
  intro tree
  have hdenotes := filter.denotes_tokenize hs.2.1 htext hs.not_infix_key clock
  have htree : tree = filter.nodeWithin clock (defaultCeiling + 1) := by
    rw [← hdenotes.compile]
    exact Tokenized.tree_of_known hs.2.1 ⟨(tokenize_sound text).2, hdenotes.fresh⟩ clock
  have hfields : tree.fields = (filter.fields clock).filterMap (fieldWithin? (defaultCeiling + 1)) := by
    rw [htree]
    exact keeps_joined (filter.keeps_nodesWithin clock) .or _
  refine ⟨?_, ?_⟩
  · rw [hfields]
    refine List.filterMap_congr fun (depth, name) _ => ?_
    simp only [fieldWithin?, Nat.add_lt_add_iff_right, Nat.add_right_cancel_iff]
  · rw [hfields]
    constructor
    · rintro h ⟨depth, name⟩ hm rfl
      have hlost : fieldWithin? (defaultCeiling + 1) (defaultCeiling, name) = some "null" := by simp [fieldWithin?]
      obtain ⟨field, hfield, he⟩ := h "null" (List.mem_filterMap.2 ⟨_, hm, hlost⟩)
      exact hnull field hfield he.symm
    · intro h name hname
      obtain ⟨⟨depth, other⟩, hm, hkept⟩ := List.mem_filterMap.1 hname
      have hdepth : depth ≠ defaultCeiling := h _ hm
      rw [fieldWithin?] at hkept
      split at hkept
      · exact ⟨_, hm, (Option.some.inj hkept).symm⟩
      · split at hkept
        · omega
        · cases hkept

/-- `a=1&(a=1|(…))`, with as many of these around a last `a=1` as are asked for. -/
def nested (clause : Clause) : Nat → Filter
  | 0 => .last (.last clause)
  | count + 1 =>
    let inner : Filter := .more (.last clause) (.last (.last (.group (nested clause count))))
    .last (.more clause (.last (.group inner)))

theorem mem_tokens_nested {clause : Clause} {count : Nat} {token : Token}
    (h : token ∈ (nested clause count).tokens) :
    token ∈ clause.tokens ++ [.sign ['&'], .sign ['|'], .sign ['('], .sign [')']] := by
  induction count with
  | zero => exact List.mem_append_left _ h
  | succ count ih =>
    simp only [nested, tokens, Alternative.tokens, Clause.tokens, List.mem_append, List.mem_cons, List.not_mem_nil,
      or_false] at h ih ⊢
    tauto

/-- All fields of nested comparisons are the same, and the last one stands deepest. -/
theorem fields_nested (clock : Instant) {clause : Clause} {name : String} (h : clause.fields clock = [(0, name)])
    (count : Nat) :
    (∀ field ∈ (nested clause count).fields clock, field.2 = name) ∧
      (2 * count, name) ∈ (nested clause count).fields clock := by
  induction count with
  | zero =>
    have hfields : (nested clause 0).fields clock = [(0, name)] := h
    simp [hfields]
  | succ count ih =>
    have hfields : (nested clause (count + 1)).fields clock = (1, name) :: (2, name) ::
        ((nested clause count).fields clock).map fun (depth, name) => (depth + 2, name) := by
      simp [nested, fields, fieldLists, Alternative.fieldLists, Clause.fields, joinedFields, h]
    rw [hfields]
    refine ⟨?_, ?_⟩
    · rintro ⟨depth, other⟩ hm
      rw [List.mem_cons, List.mem_cons, List.mem_map] at hm
      rcases hm with he | he | ⟨field, hm, he⟩
      · exact congrArg Prod.snd he
      · exact congrArg Prod.snd he
      · exact (congrArg Prod.snd he).symm.trans (ih.1 field hm)
    · exact List.mem_cons_of_mem _ (List.mem_cons_of_mem _ (List.mem_map_of_mem ih.2))

end Filter

/-- Parts may stand without blanks between them. -/
theorem Text.spaced_flatten {parts : List Text} (hne : parts ≠ []) : Text.Spaced parts parts.flatten := by
  induction parts with
  | nil => exact absurd rfl hne
  | cons part parts ih =>
    cases parts with
    | nil => simpa using Text.Spaced.last part
    | cons next parts =>
      have hblanks : ∀ c ∈ ([] : Text), isBlank c = true := by simp
      simpa using Text.Spaced.more part hblanks (ih (List.cons_ne_nil next parts))

namespace Filter

/-- Around the comparison in the middle stand as many alternatives and clauses as compile, so
that a field is left that is not written. -/
theorem fields_tree_nested :
    let letter : Operand := .word ['a'] (List.cons_ne_nil _ _) (List.forall_mem_singleton.2 (by decide))
    let digit : Operand := .word ['1'] (List.cons_ne_nil _ _) (List.forall_mem_singleton.2 (by decide))
    let filter := nested (.comparison letter .equal (.operand digit)) 128
    let text := (filter.tokens.map Token.text).flatten
    let clock : Instant := ⟨0, 0, by decide, by decide, by decide⟩
    Text.Spaced (filter.tokens.map Token.text) text ∧ Suffix.Admissible text "f0".toList ∧
      (∀ field ∈ filter.fields clock, field.2 ≠ "null") ∧
      ¬ ∀ name ∈ ((Tokenized.ofText "f0".toList text).tree clock).fields,
        ∃ field ∈ filter.fields clock, name = field.2 := by
  intro letter digit filter text clock
  have hspaced : Text.Spaced (filter.tokens.map Token.text) text := Text.spaced_flatten (List.cons_ne_nil _ _)
  have hletter : 'f' ∉ text := by
    intro hm
    obtain ⟨part, hpart, hm⟩ := List.mem_flatten.1 hm
    obtain ⟨token, htoken, rfl⟩ := List.mem_map.1 hpart
    have hsigns : ∀ token ∈ Clause.tokens (.comparison letter .equal (.operand digit)) ++
        [.sign ['&'], .sign ['|'], .sign ['('], .sign [')']], 'f' ∉ token.text := by decide
    exact hsigns token (mem_tokens_nested htoken) hm
  have hs : Suffix.Admissible text "f0".toList :=
    ⟨by decide, by decide, Text.occurs_eq_false_iff.2 fun h => hletter (h.subset List.mem_cons_self)⟩
  have hfields : Clause.fields clock (.comparison letter .equal (.operand digit)) = [(0, "a")] := rfl
  obtain ⟨hname, hdeepest⟩ := fields_nested clock hfields 128
  have hnull : ∀ field ∈ filter.fields clock, field.2 ≠ "null" := fun field hm he => by
    rw [hname field hm] at he
    exact absurd he (by decide)
  exact ⟨hspaced, hs, hnull, fun h => (filter.fields_tree clock hspaced hs hnull).2.1 h _ hdeepest rfl⟩

end Filter

end FilterQuery
