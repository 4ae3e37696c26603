import FilterQuery.Proofs.Json.RoundTrip
import FilterQuery.Proofs.Number.Reading
import FilterQuery.Proofs.Rendering
import Mathlib.Data.String.Basic
/-!
# Layouts are of one value

The reader keeps integers and strings as they are written and puts the members of an object in
order. The JSON value of a tree without doubles is `Json.Canonical`: its members stand in order
already and its integers have 64 bits, since a number in a compiled tree was read from a text.
So what is read back, in either layout, is that value. `Json.nesting` counts how deep a value
goes: the reader spends room on each level, so it reads no deeper value than it has room for.
-/

namespace FilterQuery

namespace Json

/-! ## Nesting -/

mutual

/-- How many arrays and objects stand in one another. -/
def nesting : Json → Nat
  | array items => nestingOfItems items + 1
  | object members => nestingOfMembers members + 1
  | _ => 0

/-- The deepest nesting of an item. -/
def nestingOfItems : List Json → Nat
  | [] => 0
  | item :: items => max (nesting item) (nestingOfItems items)

/-- The deepest nesting of a member. -/
def nestingOfMembers : List (String × Json) → Nat
  | [] => 0
  | (_, value) :: members => max (nesting value) (nestingOfMembers members)

end

theorem nestingOfItems_le_iff {items : List Json} {room : Nat} :
    nestingOfItems items ≤ room ↔ ∀ item ∈ items, item.nesting ≤ room := by
  induction items with
  | nil => exact iff_of_true (Nat.zero_le room) (List.forall_mem_nil _)
  | cons item items ih => rw [nestingOfItems, max_le_iff, ih, List.forall_mem_cons]

theorem nestingOfMembers_le_iff {members : List (String × Json)} {room : Nat} :
    nestingOfMembers members ≤ room ↔ ∀ member ∈ members, member.2.nesting ≤ room := by
  induction members with
  | nil => exact iff_of_true (Nat.zero_le room) (List.forall_mem_nil _)
  | cons member members ih => rw [nestingOfMembers, max_le_iff, ih, List.forall_mem_cons]

/-! ## Members in order -/

/-- The names of the members increase. -/
def Ordered (members : List (String × Json)) : Prop := members.Pairwise fun a b => a.1 < b.1

theorem ordered_insertMember {members : List (String × Json)} (h : Ordered members) (name : String) (value : Json) :
    Ordered (insertMember name value members) := by
  induction members with
  | nil => exact List.pairwise_singleton _ _
  | cons held members ih =>
    obtain ⟨hheld, hrest⟩ := List.pairwise_cons.1 h
    rw [insertMember]
    split_ifs with hlt heq
    · refine List.pairwise_cons.2 ⟨fun member hm => ?_, h⟩
      rcases List.mem_cons.1 hm with rfl | hm
      · exact hlt
      · exact hlt.trans (hheld member hm)
    · exact List.pairwise_cons.2 ⟨fun member hm => heq ▸ hheld member hm, hrest⟩
    · refine List.pairwise_cons.2 ⟨fun member hm => ?_, ih hrest⟩
      rcases mem_insertMember hm with rfl | hm
      · exact lt_of_le_of_ne (not_lt.1 hlt) (Ne.symm heq)
      · exact hheld member hm

theorem ordered_foldl_insertMember {placed : List (String × Json)} (h : Ordered placed)
    (members : List (String × Json)) :
    Ordered (members.foldl (fun placed member => insertMember member.1 member.2 placed) placed) := by
  induction members generalizing placed with
  | nil => exact h
  | cons member members ih => exact ih (ordered_insertMember h member.1 member.2)

/-- An object is in order, and its members are among those that it is made of. -/
theorem exists_ordered_ofMembers (members : List (String × Json)) :
    ∃ placed, ofMembers members = object placed ∧ Ordered placed ∧ ∀ member ∈ placed, member ∈ members :=
  ⟨_, rfl, ordered_foldl_insertMember List.Pairwise.nil members, fun _ hm =>
    (mem_foldl_insertMember hm).resolve_left List.not_mem_nil⟩

theorem insertMember_eq_append {name : String} {value : Json} {members : List (String × Json)}
    (h : ∀ member ∈ members, member.1 < name) : insertMember name value members = members ++ [(name, value)] := by
  induction members with
  | nil => rfl
  | cons held members ih =>
    have hheld := h held List.mem_cons_self
    rw [insertMember, if_neg hheld.asymm, if_neg hheld.ne', ih fun member hm => h member (List.mem_cons_of_mem _ hm)]
    rfl

theorem Ordered.foldl_insertMember {placed members : List (String × Json)} (h : Ordered (placed ++ members)) :
    members.foldl (fun placed member => insertMember member.1 member.2 placed) placed = placed ++ members := by
  induction members generalizing placed with
  | nil => exact (List.append_nil placed).symm
  | cons member members ih =>
    have hlast : ∀ held ∈ placed, held.1 < member.1 := fun held hm =>
      (List.pairwise_append.1 h).2.2 held hm member List.mem_cons_self
    rw [List.append_cons] at h
    rw [List.foldl_cons, insertMember_eq_append hlast, ih h, ← List.append_cons]

/-- Members in order are the members of their object. -/
theorem Ordered.ofMembers_eq {members : List (String × Json)} (h : Ordered members) :
    ofMembers members = object members := by
  have hnil : Ordered ([] ++ members) := h
  rw [ofMembers, hnil.foldl_insertMember, List.nil_append]

/-! ## The reader's limit -/

theorem nesting_ofMembers_le {members : List (String × Json)} {room : Nat} (h : nestingOfMembers members ≤ room) :
    (ofMembers members).nesting ≤ room + 1 := by
  obtain ⟨placed, hobject, -, hsubset⟩ := exists_ordered_ofMembers members
  rw [hobject, nesting]
  exact Nat.succ_le_succ (nestingOfMembers_le_iff.2 fun member hm => nestingOfMembers_le_iff.1 h member (hsubset member hm))

/-- What is read is not nested deeper than there is room, in any text. -/
theorem nesting_le_of_readValue? (fuel : Nat) :
    (∀ {room text value rest}, readValue? fuel room text = some (value, rest) → value.nesting ≤ room) ∧
      (∀ {room text items rest}, readItems? fuel room text = some (items, rest) → nestingOfItems items ≤ room) ∧
      ∀ {room text members rest}, readMembers? fuel room text = some (members, rest) →
        nestingOfMembers members ≤ room := by
  induction fuel with
  | zero =>
    refine ⟨fun h => ?_, fun h => ?_, fun h => ?_⟩
    · rw [readValue?] at h
      cases h
    · rw [readItems?] at h
      cases h
    · rw [readMembers?] at h
      cases h
  | succ fuel ih =>
    obtain ⟨hvalue, hitems, hmembers⟩ := ih
    refine ⟨fun {room text value rest} h => ?_, fun {room text items rest} h => ?_, fun {room text members rest} h => ?_⟩
    · rw [readValue?] at h
      split at h
      · cases h
        exact Nat.zero_le _
      · cases h
        exact Nat.zero_le _
      · cases h
        exact Nat.zero_le _
      · obtain ⟨s, -, he⟩ := Option.map_eq_some_iff.1 h
        cases he
        exact Nat.zero_le _
      · split at h
        · cases h
        · cases h
          exact Nat.succ_le_succ (Nat.zero_le _)
        · obtain ⟨read, hread, he⟩ := Option.map_eq_some_iff.1 h
          cases he
          exact Nat.succ_le_succ (hitems hread)
      · split at h
        · cases h
        · cases h
          exact Nat.succ_le_succ (Nat.zero_le _)
        · obtain ⟨read, hread, he⟩ := Option.map_eq_some_iff.1 h
          cases he
          exact nesting_ofMembers_le (hmembers hread)
      · obtain ⟨n, -, he⟩ := Option.map_eq_some_iff.1 h
        cases he
        exact Nat.zero_le _
    · rw [readItems?] at h
      obtain ⟨⟨item, behind⟩, hitem, h⟩ := Option.bind_eq_some_iff.1 h
      simp only at h
      split at h
      · obtain ⟨read, hread, he⟩ := Option.map_eq_some_iff.1 h
        cases he
        exact max_le (hvalue hitem) (hitems hread)
      · cases h
        exact max_le (hvalue hitem) (Nat.zero_le _)
      · cases h
    · rw [readMembers?] at h
      split at h
      · obtain ⟨⟨name, behind⟩, -, h⟩ := Option.bind_eq_some_iff.1 h
        simp only at h
        split at h
        · obtain ⟨⟨value, behind⟩, hread, h⟩ := Option.bind_eq_some_iff.1 h
          simp only at h
          split at h
          · obtain ⟨read, hrest, he⟩ := Option.map_eq_some_iff.1 h
            cases he
            exact max_le (hvalue hread) (hmembers hrest)
          · cases h
            exact max_le (hvalue hread) (Nat.zero_le _)
          · cases h
        · cases h
      · cases h

theorem nesting_le_of_read? {text : Text} {value : Json} (h : read? text = some value) : value.nesting ≤ maxDepth := by
  obtain ⟨⟨read, rest⟩, hread, h⟩ := Option.bind_eq_some_iff.1 h
  obtain ⟨-, he⟩ := Option.ite_none_right_eq_some.1 h
  obtain rfl := Option.some.inj he
  exact (nesting_le_of_readValue? _).1 hread

/-! ## Canonical values -/

/-- The value is written as it is read: its numbers are integers of 64 bits, and the members of
its objects stand in order. -/
inductive Canonical : Json → Prop where
  | null : Canonical .null
  | bool (b : Bool) : Canonical (.bool b)
  | integer {n : Int} (hleast : Number.minInteger ≤ n) (hgreatest : n ≤ Number.maxInteger) :
      Canonical (.number (.integer n))
  | string (s : String) : Canonical (.string s)
  | array {items : List Json} (h : ∀ item ∈ items, Canonical item) : Canonical (.array items)
  | object {members : List (String × Json)} (hordered : Ordered members)
      (h : ∀ member ∈ members, Canonical member.2) : Canonical (.object members)

theorem rereadMembers_eq_map (members : List (String × Json)) :
    rereadMembers members = members.map fun member => (member.1, member.2.reread) := by
  induction members with
  | nil => rfl
  | cons member members ih => rw [rereadMembers, ih, List.map_cons]

theorem reread_integer {n : Int} (hleast : -2 ^ 63 ≤ n) (hgreatest : n < 2 ^ 64) :
    Number.reread (.integer n) = .integer n := by
  have hread := readNumber?_ofInt hleast hgreatest (show EndsNumber [] from nofun)
  rw [List.append_nil] at hread
  rw [Number.reread, numberText, hread]
  rfl

theorem isWritten_integer {n : Int} (hleast : Number.minInteger ≤ n) (hgreatest : n ≤ Number.maxInteger) :
    Number.IsWritten (.integer n) := by
  unfold Number.minInteger at hleast
  unfold Number.maxInteger at hgreatest
  constructor <;> omega

/-- A canonical value is read back as itself. -/
theorem Canonical.reread_eq {value : Json} (h : value.Canonical) : value.reread = value := by
  induction value using Json.induction with
  | null => rfl
  | bool b => rfl
  | number n =>
    cases h with
    | integer hleast hgreatest =>
      obtain ⟨hleast, hgreatest⟩ := isWritten_integer hleast hgreatest
      rw [reread, reread_integer hleast hgreatest]
  | string s => rfl
  | array items ih =>
    cases h with
    | array h =>
      have hitems : items.map reread = items := by
        conv_rhs => rw [← List.map_id items]
        exact List.map_congr_left fun item hm => ih item hm (h item hm)
      rw [reread, rereadItems_eq_map, hitems]
  | object members ih =>
    cases h with
    | object hordered h =>
      have hmembers : (members.map fun member => (member.1, member.2.reread)) = members := by
        conv_rhs => rw [← List.map_id members]
        exact List.map_congr_left fun member hm => Prod.ext rfl (ih member hm (h member hm))
      rw [reread, rereadMembers_eq_map, hmembers, hordered.ofMembers_eq]

/-- A canonical value has room in as many levels as it is nested deep. -/
theorem Canonical.fits {value : Json} (h : value.Canonical) {room : Nat} (hroom : value.nesting ≤ room) :
    value.Fits room := by
  induction value using Json.induction generalizing room with
  | null => exact .null room
  | bool b => exact .bool room b
  | number n =>
    cases h with
    | integer hleast hgreatest => exact .number room (isWritten_integer hleast hgreatest)
  | string s => exact .string room s
  | array items ih =>
    rw [nesting] at hroom
    cases room with
    | zero => exact absurd hroom (Nat.not_succ_le_zero _)
    | succ room =>
      cases h with
      | array h =>
        have hitems := nestingOfItems_le_iff.1 (Nat.le_of_succ_le_succ hroom)
        exact .array fun item hm => ih item hm (h item hm) (hitems item hm)
  | object members ih =>
    rw [nesting] at hroom
    cases room with
    | zero => exact absurd hroom (Nat.not_succ_le_zero _)
    | succ room =>
      cases h with
      | object hordered h =>
        have hmembers := nestingOfMembers_le_iff.1 (Nat.le_of_succ_le_succ hroom)
        exact .object fun member hm => ih member hm (h member hm) (hmembers member hm)

end Json

namespace Node

/-! ## Numbers of compiled trees -/

variable {n : Number}

theorem Holds.of_entry {key : Key} {value : Node} (h : (object [(key, value)]).Holds (number n)) :
    value.Holds (number n) := by
  cases h with
  | value hm h =>
    obtain ⟨rfl, rfl⟩ := Prod.mk.inj (List.mem_singleton.1 hm)
    exact h

theorem Holds.of_constraint {value : Node} {symbol : Comparison} (h : (symbol.constraint value).Holds (number n)) :
    value.Holds (number n) := by
  cases symbol with
  | strictEqual => exact h
  | equal =>
    simp only [Comparison.constraint] at h
    split at h
    · exact h.of_entry
    · exact h
  | regexInsensitive =>
    cases h with
    | value hm h =>
      rcases List.mem_cons.1 hm with he | hm
      · exact (Prod.mk.inj he).2 ▸ h
      · obtain ⟨-, rfl⟩ := Prod.mk.inj (List.mem_singleton.1 hm)
        cases h
  | _ => exact h.of_entry

theorem Holds.of_list {items : List Node} (h : (list items).Holds (number n)) : ∃ item ∈ items, item.Holds (number n) := by
  cases h with
  | item hm h => exact ⟨_, hm, h⟩

theorem read?_of_holds_ofScalar {text : Text} (h : (ofScalar text).Holds (number n)) : Number.read? text = some n := by
  rcases ofScalar_cases text with he | ⟨b, he⟩ | ⟨read, hread, he⟩ | ⟨instant, -, he⟩ | he <;> rw [he] at h <;> cases h
  exact hread

end Node

/-- A number in the tree of a shape stands in the tree of a part, or the text of a scalar is read for it. -/
theorem Shape.exists_of_holds {τ : Type} {spell : τ → Text} {compile : τ → Node} {shape : Shape τ} {n : Number}
    (h : (shape.node spell compile).Holds (.number n)) :
    (∃ part, (compile part).Holds (.number n)) ∨ ∃ text, Number.read? text = some n := by
  have hmap : ∀ {parts : List τ}, (∃ node ∈ parts.map compile, node.Holds (.number n)) →
      ∃ part, (compile part).Holds (.number n) := by
    rintro parts ⟨node, hm, h⟩
    obtain ⟨part, -, rfl⟩ := List.mem_map.1 hm
    exact ⟨part, h⟩
  cases shape with
  | null => cases h
  | date instant => cases h
  | quoted content => cases h
  | list items => exact .inl (hmap h.of_list)
  | comparison symbol left right => exact .inl ⟨right, h.of_entry.of_constraint⟩
  | clauses connective parts =>
    obtain ⟨node, hm, h⟩ := h.of_entry.of_list
    exact .inl (hmap ⟨node, (List.mem_filter.1 hm).1, h⟩)
  | scalar text => exact .inr ⟨_, Node.read?_of_holds_ofScalar h⟩

namespace Table

/-- Every number in a compiled tree was read from a text. -/
theorem exists_read?_of_holds {table : Table} {clock : Instant} {levels : Nat} {text : Text} {n : Number}
    (h : (table.compileWithin clock levels text).Holds (.number n)) : ∃ text, Number.read? text = some n := by
  induction levels generalizing text with
  | zero => cases h
  | succ levels ih =>
    unfold compileWithin at h
    cases hresolve : table.resolve? text with
    | none =>
      rw [hresolve] at h
      cases h
    | some resolved =>
      rw [hresolve] at h
      rcases Shape.exists_of_holds h with ⟨part, hpart⟩ | hread
      · exact ih hpart
      · exact hread

end Table

/-! ## Both layouts -/

namespace Node

theorem canonical_member (dialect : Dialect) (key : Key) (value : Node) {json : Json} (h : json.Canonical) :
    (dialect.member key value json).2.Canonical := by
  cases key with
  | field name => exact h
  | operator op =>
    unfold Dialect.member
    simp only
    split
    · exact .string _
    · exact h

/-- A tree whose numbers are integers of 64 bits has a canonical value. -/
theorem canonical_toJson {tree : Node} (dialect : Dialect)
    (h : ∀ n, tree.Holds (number n) → ∃ i, n = .integer i ∧ Number.minInteger ≤ i ∧ i ≤ Number.maxInteger) :
    (tree.toJson dialect).Canonical := by
  induction tree using Node.induction with
  | null => exact .null
  | bool b => exact .bool b
  | number n =>
    obtain ⟨i, rfl, hleast, hgreatest⟩ := h n (.self _)
    exact .integer hleast hgreatest
  | string s => exact .string s
  | date instant => exact .string _
  | list items ih =>
    rw [toJson, itemsToJson_eq_map]
    refine .array fun json hm => ?_
    obtain ⟨item, hitem, rfl⟩ := List.mem_map.1 hm
    exact ih item hitem fun n hn => h n (.item hitem hn)
  | object entries ih =>
    obtain ⟨placed, hobject, hordered, hsubset⟩ := Json.exists_ordered_ofMembers (entriesToJson dialect entries)
    rw [toJson, hobject]
    refine .object hordered fun member hm => ?_
    have hmember := hsubset member hm
    rw [entriesToJson_eq_map] at hmember
    obtain ⟨⟨key, value⟩, hentry, rfl⟩ := List.mem_map.1 hmember
    exact canonical_member dialect key value (ih (key, value) hentry fun n hn => h n (.value hentry hn))

end Node

namespace Table

/-- The compact and the indented text of a compiled tree without doubles are read for the JSON
value of the tree exactly if it is not nested too deep for the reader. -/
theorem read?_compact_pretty (table : Table) (clock : Instant) (ceiling depth : Nat) (text : Text) :
    let tree := table.compileAt clock ceiling depth text
    (∀ d, ¬ tree.Holds (.number (.real d))) → ∀ dialect,
      (Json.read? (tree.compact dialect).toList = some (tree.toJson dialect) ↔ (tree.toJson dialect).nesting ≤ 127) ∧
        (Json.read? (tree.pretty dialect).toList = some (tree.toJson dialect) ↔
          (tree.toJson dialect).nesting ≤ 127) := by
  intro tree hreal dialect
  have hcanonical : (tree.toJson dialect).Canonical := by
    refine Node.canonical_toJson dialect fun n hn => ?_
    obtain ⟨text, hread⟩ := exists_read?_of_holds hn
    cases n with
    | integer i => exact ⟨i, rfl, (Number.read?_eq_some_iff.1 hread).bounds⟩
    | real d => exact absurd hn (hreal d)
  have hread : ∀ isPretty, Json.read? ((tree.toJson dialect).render isPretty).toList = some (tree.toJson dialect) ↔
      (tree.toJson dialect).nesting ≤ 127 := by
    refine fun isPretty => ⟨Json.nesting_le_of_read?, fun hnesting => ?_⟩
    rw [Json.read?_render isPretty (hcanonical.fits hnesting), hcanonical.reread_eq]
  exact ⟨hread false, hread true⟩

/-- Escapes in a name and in a string, and the least integer. -/
theorem read?_compact_pretty_escapes :
    let clock : Instant := ⟨0, 0, by decide, by decide, by decide⟩
    let table : Table := ⟨[⟨"k".toList, "'\\\n\x01'".toList⟩]⟩
    let tree := table.compileAt clock 256 0 "a\"b=[k,-9223372036854775808]".toList
    let json : Json := .object [("a\"b", .object [("$in", .array [.string "\\\n\x01", .number (.integer (-9223372036854775808))])])]
    tree.toJson .mongo = json ∧ json.nesting = 3 ∧ (∀ d, ¬ tree.Holds (.number (.real d))) ∧
      Json.read? (tree.compact .mongo).toList = some json ∧ Json.read? (tree.pretty .mongo).toList = some json := by
  intro clock table tree json
  have htree : tree = .ofField "a\"b" (.ofOperator .isIn (.list [.string "\\\n\x01", .number (.integer (-9223372036854775808))])) :=
    rfl
  have hjson : tree.toJson .mongo = json := by
    rw [htree]
    rfl
  have hreal : ∀ d, ¬ tree.Holds (.number (.real d)) := by
    intro d h
    rw [htree] at h
    obtain ⟨item, hm, h⟩ := h.of_entry.of_entry.of_list
    rcases List.mem_cons.1 hm with rfl | hm
    · cases h
    · obtain rfl := List.mem_singleton.1 hm
      cases h
  have hnesting : json.nesting = 3 := rfl
  have hread := read?_compact_pretty table clock 256 0 "a\"b=[k,-9223372036854775808]".toList hreal .mongo
  rw [hjson, hnesting] at hread
  have hroom : 3 ≤ 127 := by decide
  exact ⟨hjson, hnesting, hreal, hread.1.2 hroom, hread.2.2 hroom⟩

end Table

end FilterQuery
