import FilterQuery.Compile
import FilterQuery.Token.Rewrite
/-!
# The grammar of filters

A filter is one alternative or more, an alternative is one clause or more, and a clause
is a comparison or a filter in parentheses. `Filter.tokens` is how a filter is written,
`Filter.node` the tree that it means under a clock, `Filter.depth` how deep its
comparisons stand, and `Filter.nodeWithin` what is left of the tree where levels run out.
-/

namespace FilterQuery

/-! ## Syntax -/

/-- The character may stand in a word. -/
def isWordChar (c : Char) : Bool :=
  ! isBlank c && c ∉ ['\'', '"', '(', ')', '[', ']', ',', '&', '|', '<', '>', '=', '!', '~', '*']

/-- A word or a quoted literal. -/
inductive Operand where
  | word (text : Text) (hne : text ≠ []) (h : ∀ c ∈ text, isWordChar c = true)
  | single (content : Text) (h : '\'' ∉ content)
  | double (content : Text) (h : '\'' ∉ content ∧ '"' ∉ content)

/-- What a field is compared with. -/
inductive Value where
  | operand (operand : Operand)
  | list (items : List Operand)

mutual

/-- Alternatives, one or more. -/
inductive Filter where
  | last (alternative : Alternative)
  | more (alternative : Alternative) (filter : Filter)

/-- Clauses that hold together, one or more. -/
inductive Alternative where
  | last (clause : Clause)
  | more (clause : Clause) (alternative : Alternative)

/-- A comparison, or a filter in parentheses. -/
inductive Clause where
  | comparison (field : Operand) (symbol : Comparison) (value : Value)
  | group (filter : Filter)

end

/-! ## Writing -/

/-- What may not be broken up by blanks. -/
inductive Token where
  | sign (text : Text)
  | literal (quote : Char) (content : Text)

/-- The text of a token. -/
def Token.text : Token → Text
  | sign text => text
  | literal quote content => quote :: content ++ [quote]

/-- The token of an operand. -/
def Operand.token : Operand → Token
  | word text _ _ => .sign text
  | single content _ => .literal '\'' content
  | double content _ => .literal '"' content

/-- Operands with commas between them. -/
def Operand.listed : List Operand → List Token
  | [] => []
  | [item] => [item.token]
  | item :: next :: items => item.token :: .sign [','] :: listed (next :: items)

/-- The tokens of a value. -/
def Value.tokens : Value → List Token
  | operand o => [o.token]
  | list items => .sign ['['] :: Operand.listed items ++ [.sign [']']]

mutual

/-- The tokens of a filter. -/
def Filter.tokens : Filter → List Token
  | .last alternative => alternative.tokens
  | .more alternative filter => alternative.tokens ++ .sign ['|'] :: filter.tokens

/-- The tokens of an alternative. -/
def Alternative.tokens : Alternative → List Token
  | .last clause => clause.tokens
  | .more clause alternative => clause.tokens ++ .sign ['&'] :: alternative.tokens

/-- The tokens of a clause. -/
def Clause.tokens : Clause → List Token
  | .comparison field symbol value => field.token :: .sign symbol.symbol :: value.tokens
  | .group filter => .sign ['('] :: filter.tokens ++ [.sign [')']]

end

/-- The text consists of the given parts, with any blanks between them. -/
inductive Text.Spaced : List Text → Text → Prop where
  | last (part : Text) : Spaced [part] part
  | more (part : Text) {blanks : Text} {parts : List Text} {text : Text}
      (hb : ∀ c ∈ blanks, isBlank c = true) (h : Spaced parts text) : Spaced (part :: parts) (part ++ blanks ++ text)

/-! ## Meaning -/

/-- The tree of an operand. -/
def Operand.node (clock : Instant) : Operand → Node
  | word text _ _ =>
    if text = "null".toList then .null else ((clock.ofRelative? text).map .date).getD (.ofScalar text)
  | single content _ => .string (String.ofList content)
  | double content _ => .string (String.ofList content)

/-- The tree of a value. -/
def Value.node (clock : Instant) : Value → Node
  | operand o => o.node clock
  | list items => .list (items.map (·.node clock))

/-- What a field is compared with under a symbol. Lists with items are sets to `=` and `!=`. -/
def Node.compared (symbol : Text) (value : Node) : Node :=
  match String.ofList symbol, value with
  | ">=", _ => .ofOperator .gte value
  | ">", _ => .ofOperator .gt value
  | "<=", _ => .ofOperator .lte value
  | "<", _ => .ofOperator .lt value
  | "!==", _ => .ofOperator .ne value
  | "!=", .list (_ :: _) => .ofOperator .nin value
  | "!=", _ => .ofOperator .ne value
  | "=", .list (_ :: _) => .ofOperator .isIn value
  | "~*", _ => .object [(.operator .regex, value), (.operator .caseInsensitive, .bool true)]
  | "~", _ => .ofOperator .regex value
  | _, _ => value

/-- The compiler makes of a comparison what its symbol means. -/
theorem Comparison.constraint_eq_compared (symbol : Comparison) (value : Node) :
    symbol.constraint value = .compared symbol.symbol value := by
  cases symbol with
  | notEqual => rcases value with _ | _ | _ | _ | _ | (_ | _) | _ <;> rfl
  | equal => rcases value with _ | _ | _ | _ | _ | (_ | _) | _ <;> rfl
  | _ => rfl

/-- The tree of what an operator joins. One tree is not joined to any other. -/
def Node.joined (op : Operator) : List Node → Node
  | [node] => node
  | nodes => .ofOperator op (.list nodes)

mutual

/-- The trees of the alternatives of a filter. -/
def Filter.nodes (clock : Instant) : Filter → List Node
  | .last alternative => [.joined .and (alternative.nodes clock)]
  | .more alternative filter => .joined .and (alternative.nodes clock) :: filter.nodes clock

/-- The trees of the clauses of an alternative. -/
def Alternative.nodes (clock : Instant) : Alternative → List Node
  | .last clause => [clause.node clock]
  | .more clause alternative => clause.node clock :: alternative.nodes clock

/-- The tree of a clause. -/
def Clause.node (clock : Instant) : Clause → Node
  | .comparison field symbol value =>
    .ofField (field.node clock).fieldName (.compared symbol.symbol (value.node clock))
  | .group filter => .joined .or (filter.nodes clock)

end

/-- The tree of a filter. -/
def Filter.node (clock : Instant) (filter : Filter) : Node := .joined .or (filter.nodes clock)

/-- The tree of an alternative. -/
def Alternative.node (clock : Instant) (alternative : Alternative) : Node :=
  .joined .and (alternative.nodes clock)

/-! ## Depth -/

/-- The depth of what is joined. One part is not joined to any other. -/
def joinedDepth : List Nat → Nat
  | [depth] => depth
  | depths => depths.foldr max 0 + 1

mutual

/-- The depths of the alternatives of a filter. -/
def Filter.depths : Filter → List Nat
  | .last alternative => [joinedDepth alternative.depths]
  | .more alternative filter => joinedDepth alternative.depths :: filter.depths

/-- The depths of the clauses of an alternative. -/
def Alternative.depths : Alternative → List Nat
  | .last clause => [clause.depth]
  | .more clause alternative => clause.depth :: alternative.depths

/-- How many joined alternatives and clauses at most stand around a comparison. -/
def Clause.depth : Clause → Nat
  | .comparison _ _ _ => 0
  | .group filter => joinedDepth filter.depths

end

/-- How many joined alternatives and clauses at most stand around a comparison. -/
def Filter.depth (filter : Filter) : Nat := joinedDepth filter.depths

/-- How many joined alternatives and clauses at most stand around a comparison. -/
def Alternative.depth (alternative : Alternative) : Nat := joinedDepth alternative.depths

theorem le_foldr_max {depth : Nat} {depths : List Nat} (h : depth ∈ depths) : depth ≤ depths.foldr max 0 := by
  induction depths with
  | nil => cases h
  | cons other depths ih =>
    rw [List.foldr_cons]
    rcases List.mem_cons.1 h with rfl | h
    · exact Nat.le_max_left ..
    · exact Nat.le_trans (ih h) (Nat.le_max_right ..)

theorem lt_joinedDepth {depth : Nat} {depths : List Nat} (hlength : 2 ≤ depths.length) (h : depth ∈ depths) :
    depth < joinedDepth depths := by
  rcases depths with _ | ⟨first, _ | ⟨second, depths⟩⟩
  · cases h
  · simp at hlength
  · exact Nat.lt_succ_of_le (le_foldr_max h)

/-! ## Meaning within levels -/

/-- What stands one level deeper, which is null if no level is left. -/
def Node.descend (node : Nat → Node) : Nat → Node
  | 0 => .null
  | levels + 1 => node levels

/-- The tree of an operand with a number of levels to go. -/
def Operand.nodeWithin (clock : Instant) (operand : Operand) : Nat → Node := .descend fun _ => operand.node clock

/-- The tree of a value with a number of levels to go. -/
def Value.nodeWithin (clock : Instant) : Value → Nat → Node
  | operand o => o.nodeWithin clock
  | list items => .descend fun levels => .list (items.map (·.nodeWithin clock levels))

/-- What a comparison of two operands is with a number of levels to go. -/
def Comparison.nodeWithin (symbol : Comparison) (field value : Nat → Node) : Nat → Node :=
  .descend fun levels => .ofField (field levels).fieldName (symbol.constraint (value levels))

/-- The tree of what a connective joins with a number of levels to go. One tree is not
joined to any other and takes no level. -/
def Node.joinedWithin (connective : Connective) : List (Nat → Node) → Nat → Node
  | [node] => node
  | nodes => .descend fun levels => .ofClauses connective (nodes.map (· levels))

mutual

/-- The trees of the alternatives of a filter with a number of levels to go. -/
def Filter.nodesWithin (clock : Instant) : Filter → List (Nat → Node)
  | .last alternative => [.joinedWithin .and (alternative.nodesWithin clock)]
  | .more alternative filter => .joinedWithin .and (alternative.nodesWithin clock) :: filter.nodesWithin clock

/-- The trees of the clauses of an alternative with a number of levels to go. -/
def Alternative.nodesWithin (clock : Instant) : Alternative → List (Nat → Node)
  | .last clause => [clause.nodeWithin clock]
  | .more clause alternative => clause.nodeWithin clock :: alternative.nodesWithin clock

/-- The tree of a clause with a number of levels to go. -/
def Clause.nodeWithin (clock : Instant) : Clause → Nat → Node
  | .comparison field symbol value => symbol.nodeWithin (field.nodeWithin clock) (value.nodeWithin clock)
  | .group filter => .joinedWithin .or (filter.nodesWithin clock)

end

/-- The tree of a filter with a number of levels to go. -/
def Filter.nodeWithin (clock : Instant) (filter : Filter) : Nat → Node :=
  .joinedWithin .or (filter.nodesWithin clock)

/-- The tree of an alternative with a number of levels to go. -/
def Alternative.nodeWithin (clock : Instant) (alternative : Alternative) : Nat → Node :=
  .joinedWithin .and (alternative.nodesWithin clock)

/-! ## Members -/

namespace Filter

/-- The alternatives of a filter. -/
def alternatives : Filter → List Alternative
  | last alternative => [alternative]
  | more alternative filter => alternative :: filter.alternatives

theorem nodes_eq_map (clock : Instant) : ∀ filter : Filter,
    filter.nodes clock = filter.alternatives.map (·.node clock)
  | last _ => rfl
  | more _ filter => by rw [nodes, nodes_eq_map clock filter]; rfl

theorem nodesWithin_eq_map (clock : Instant) : ∀ filter : Filter,
    filter.nodesWithin clock = filter.alternatives.map (·.nodeWithin clock)
  | last _ => rfl
  | more _ filter => by rw [nodesWithin, nodesWithin_eq_map clock filter]; rfl

theorem depths_eq_map : ∀ filter : Filter, filter.depths = filter.alternatives.map (·.depth)
  | last _ => rfl
  | more _ filter => by rw [depths, depths_eq_map filter]; rfl

theorem alternatives_ne_nil (filter : Filter) : filter.alternatives ≠ [] := by
  cases filter <;> simp [alternatives]

theorem nodesWithin_ne_nil (clock : Instant) (filter : Filter) : filter.nodesWithin clock ≠ [] := by
  cases filter <;> simp [nodesWithin]

end Filter

namespace Alternative

/-- The clauses of an alternative. -/
def clauses : Alternative → List Clause
  | last clause => [clause]
  | more clause alternative => clause :: alternative.clauses

theorem nodes_eq_map (clock : Instant) : ∀ alternative : Alternative,
    alternative.nodes clock = alternative.clauses.map (·.node clock)
  | last _ => rfl
  | more _ alternative => by rw [nodes, nodes_eq_map clock alternative]; rfl

theorem nodesWithin_eq_map (clock : Instant) : ∀ alternative : Alternative,
    alternative.nodesWithin clock = alternative.clauses.map (·.nodeWithin clock)
  | last _ => rfl
  | more _ alternative => by rw [nodesWithin, nodesWithin_eq_map clock alternative]; rfl

theorem depths_eq_map : ∀ alternative : Alternative, alternative.depths = alternative.clauses.map (·.depth)
  | last _ => rfl
  | more _ alternative => by rw [depths, depths_eq_map alternative]; rfl

theorem clauses_ne_nil (alternative : Alternative) : alternative.clauses ≠ [] := by
  cases alternative <;> simp [clauses]

theorem nodesWithin_ne_nil (clock : Instant) (alternative : Alternative) : alternative.nodesWithin clock ≠ [] := by
  cases alternative <;> simp [nodesWithin]

end Alternative

end FilterQuery
