import FilterQuery.Compile
/-!
# Well-formed trees

`Node.WellFormed` says how a tree may be built: an object is one field, or the clauses
of one connective. What an operator says about a field, `Node.IsConstraint`, stands
directly under the field and nowhere else. `Table.wellFormed_compileAt` says that
compiling gives no other trees, whatever the table holds and whatever the text is.
-/

namespace FilterQuery

namespace Operator

/-- The operators that relate a field to a value of any kind. -/
def relations : List Operator := [gte, gt, lte, lt, ne, regex]

/-- The operators that relate a field to the items of a list. -/
def memberships : List Operator := [isIn, nin]

end Operator

namespace Node

mutual

/-- A tree that may stand at the top, as an item of a list, as a clause, and as the
value of a field or an operator. -/
inductive WellFormed : Node → Prop where
  | null : WellFormed .null
  | bool (value : Bool) : WellFormed (.bool value)
  | number (value : Number) : WellFormed (.number value)
  | string (value : String) : WellFormed (.string value)
  | date (value : Instant) : WellFormed (.date value)
  | list {items : List Node} (h : ∀ item ∈ items, WellFormed item) : WellFormed (.list items)
  | clauses (connective : Connective) {parts : List Node} (h : ∀ part ∈ parts, WellFormed part)
      (hclause : ∀ part ∈ parts, part.isClause = true) :
      WellFormed (.object [(.operator connective.operator, .list parts)])
  | equality (name : String) {value : Node} (h : WellFormed value) :
      WellFormed (.object [(.field name, value)])
  | constrained (name : String) {value : Node} (h : IsConstraint value) :
      WellFormed (.object [(.field name, value)])

/-- What an operator says about the field that it stands under. -/
inductive IsConstraint : Node → Prop where
  | relation {op : Operator} (hop : op ∈ Operator.relations) {value : Node} (h : WellFormed value) :
      IsConstraint (.object [(.operator op, value)])
  | membership {op : Operator} (hop : op ∈ Operator.memberships) {items : List Node} (hne : items ≠ [])
      (h : ∀ item ∈ items, WellFormed item) : IsConstraint (.object [(.operator op, .list items)])
  | insensitive {value : Node} (h : WellFormed value) :
      IsConstraint (.object [(.operator .regex, value), (.operator .caseInsensitive, .bool true)])

end

/-- A constraint is no tree of its own: it stands neither at the top nor in a list nor
under another operator. -/
theorem WellFormed.not_isConstraint {node : Node} (h : node.WellFormed) : ¬ node.IsConstraint := by
  intro hc
  cases h with
  | clauses connective h hclause =>
    cases connective <;> cases hc with
    | relation hop _ => exact absurd hop (by decide)
    | membership hop _ _ => exact absurd hop (by decide)
  | _ => cases hc

/-! ## What is compiled is well-formed -/

theorem wellFormed_ofScalar (text : Text) : (ofScalar text).WellFormed := by
  rcases ofScalar_cases text with h | ⟨b, h⟩ | ⟨n, -, h⟩ | ⟨instant, -, h⟩ | h <;> rw [h]
  · exact .null
  · exact .bool b
  · exact .number n
  · exact .date instant
  · exact .string _

theorem WellFormed.membership {value : Node} (h : value.WellFormed) (hlist : value.isNonEmptyList = true)
    {op : Operator} (hop : op ∈ Operator.memberships) : (ofOperator op value).IsConstraint := by
  cases h with
  | @list items hitems =>
    have hne : items ≠ [] := by
      rintro rfl
      cases hlist
    exact .membership hop hne hitems
  | _ => cases hlist

/-- A comparison says of the field that it equals a tree, or puts a constraint on it. -/
theorem WellFormed.constraint {value : Node} (h : value.WellFormed) (symbol : Comparison) :
    (symbol.constraint value).WellFormed ∨ (symbol.constraint value).IsConstraint := by
  cases symbol with
  | greaterEqual => exact .inr (.relation (by decide) h)
  | greater => exact .inr (.relation (by decide) h)
  | lessEqual => exact .inr (.relation (by decide) h)
  | less => exact .inr (.relation (by decide) h)
  | strictNotEqual => exact .inr (.relation (by decide) h)
  | notEqual =>
    unfold Comparison.constraint
    by_cases hlist : value.isNonEmptyList = true
    · simp only [hlist, if_true]
      exact .inr (h.membership hlist (by decide))
    · simp only [hlist]
      exact .inr (.relation (by decide) h)
  | strictEqual => exact .inl h
  | equal =>
    unfold Comparison.constraint
    by_cases hlist : value.isNonEmptyList = true
    · simp only [hlist, if_true]
      exact .inr (h.membership hlist (by decide))
    · simp only [hlist]
      exact .inl h
  | regexInsensitive => exact .inr (.insensitive h)
  | regex => exact .inr (.relation (by decide) h)

theorem WellFormed.ofField {value : Node} (h : value.WellFormed) (name : String) (symbol : Comparison) :
    (ofField name (symbol.constraint value)).WellFormed := by
  rcases h.constraint symbol with hvalue | hvalue
  · exact .equality name hvalue
  · exact .constrained name hvalue

theorem wellFormed_ofClauses {parts : List Node} (h : ∀ part ∈ parts, part.WellFormed)
    (connective : Connective) : (ofClauses connective parts).WellFormed := by
  apply WellFormed.clauses
  · intro part hm
    exact h part (List.mem_filter.1 hm).1
  · intro part hm
    exact (List.mem_filter.1 hm).2

end Node

/-- A shape whose parts compile to well-formed trees gives a well-formed tree. -/
theorem Shape.wellFormed_node {τ : Type} (spell : τ → Text) {compile : τ → Node}
    (h : ∀ part, (compile part).WellFormed) (shape : Shape τ) : (shape.node spell compile).WellFormed := by
  have hmap : ∀ parts : List τ, ∀ node ∈ parts.map compile, node.WellFormed := by
    intro parts node hm
    obtain ⟨part, -, rfl⟩ := List.mem_map.1 hm
    exact h part
  cases shape with
  | null => exact .null
  | date instant => exact .date instant
  | quoted content => exact .string _
  | list items => exact .list (hmap items)
  | comparison symbol left right => exact (h right).ofField _ symbol
  | clauses connective parts => exact Node.wellFormed_ofClauses (hmap parts) connective
  | scalar text => exact Node.wellFormed_ofScalar _

namespace Table

theorem wellFormed_compileWithin (table : Table) (clock : Instant) (levels : Nat) (text : Text) :
    (table.compileWithin clock levels text).WellFormed := by
  induction levels generalizing text with
  | zero => exact .null
  | succ levels ih =>
    unfold compileWithin
    cases table.resolve? text with
    | none => exact .null
    | some resolved => exact Shape.wellFormed_node id ih (Shape.ofText clock resolved)

/-- Compiling gives well-formed trees only, and never a constraint without its field. -/
theorem wellFormed_compileAt (table : Table) (clock : Instant) (ceiling depth : Nat) (text : Text) :
    (table.compileAt clock ceiling depth text).WellFormed ∧
      ¬ (table.compileAt clock ceiling depth text).IsConstraint := by
  have h : (table.compileAt clock ceiling depth text).WellFormed :=
    table.wellFormed_compileWithin clock (ceiling + 1 - depth) text
  exact ⟨h, h.not_isConstraint⟩

end Table

end FilterQuery
