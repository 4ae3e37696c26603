import FilterQuery.Proofs.Mention
import FilterQuery.Proofs.WellFormed
/-!
# Rendered trees

An object of JSON keeps one member for a name, so a tree could lose entries when it is
rendered. `Node.RendersInFull` says that an array keeps its items and an object its
entries, and `Node.Respelled` says how the Mongo value of a tree differs from the plain
one. `Table.rendered_compileAt` proves both of every tree that is compiled, from the
shape that `Node.WellFormed` gives it.
-/

namespace FilterQuery

/-! ## Members of different names -/

namespace Json

/-- A member of a new name displaces none. -/
theorem insertMember_perm {name : String} {value : Json} {members : List (String × Json)}
    (h : name ∉ members.map Prod.fst) : (insertMember name value members).Perm ((name, value) :: members) := by
  induction members with
  | nil => exact .refl _
  | cons member members ih =>
    obtain ⟨other, held⟩ := member
    obtain ⟨hne, hrest⟩ := List.ne_and_not_mem_of_not_mem_cons h
    rw [insertMember]
    by_cases hlt : name < other
    · rw [if_pos hlt]
    · rw [if_neg hlt, if_neg hne]
      apply ((ih hrest).cons (other, held)).trans
      exact .swap _ _ _

theorem foldl_insertMember_perm {members placed : List (String × Json)}
    (h : ((members ++ placed).map Prod.fst).Nodup) :
    (members.foldl (fun placed member => insertMember member.1 member.2 placed) placed).Perm
      (members ++ placed) := by
  induction members generalizing placed with
  | nil => exact .refl _
  | cons member members ih =>
    obtain ⟨hnew, hrest⟩ := List.nodup_cons.1 h
    have hplaced : member.1 ∉ placed.map Prod.fst := by
      intro hm
      apply hnew
      exact List.map_subset _ (List.subset_append_right members placed) hm
    have hperm : (members ++ insertMember member.1 member.2 placed).Perm (member :: (members ++ placed)) :=
      ((insertMember_perm hplaced).append_left members).trans List.perm_middle
    apply (ih _).trans hperm
    exact (hperm.map Prod.fst).nodup_iff.2 h

/-- An object of members of different names has just these members. -/
theorem exists_ofMembers {members : List (String × Json)} (h : (members.map Prod.fst).Nodup) :
    ∃ placed, ofMembers members = object placed ∧ placed.Perm members := by
  have hnames : ((members ++ []).map Prod.fst).Nodup := by rwa [List.append_nil]
  have hperm := foldl_insertMember_perm hnames
  rw [List.append_nil] at hperm
  exact ⟨_, rfl, hperm⟩

end Json

namespace Dialect

/-- The name of the member that an entry of a key becomes. -/
def keyName (dialect : Dialect) : Key → String
  | .field name => name
  | .operator op => dialect.operatorKey op

theorem member_fst (dialect : Dialect) (key : Key) (value : Node) (json : Json) :
    (dialect.member key value json).1 = dialect.keyName key := by
  cases key <;> rfl

theorem keyName_regex_ne_caseInsensitive (dialect : Dialect) :
    dialect.keyName (.operator .regex) ≠ dialect.keyName (.operator .caseInsensitive) := by
  cases dialect <;> decide

theorem operatorKey_mongo {op : Operator} (h : op ≠ .caseInsensitive) : mongo.operatorKey op = "$" ++ op.name := by
  cases op with
  | caseInsensitive => exact absurd rfl h
  | _ => rfl

end Dialect

namespace Node

/-! ## Parts of a tree -/

/-- The part stands in the tree, at any depth. -/
inductive Holds : Node → Node → Prop where
  | self (part : Node) : Holds part part
  | item {items : List Node} {item part : Node} (hm : item ∈ items) (h : Holds item part) :
      Holds (.list items) part
  | value {entries : List (Key × Node)} {key : Key} {value part : Node} (hm : (key, value) ∈ entries)
      (h : Holds value part) : Holds (.object entries) part

/-- A tree of a compiled tree: a constraint is one only under its field. -/
def IsPart (part : Node) : Prop := part.WellFormed ∨ part.IsConstraint

theorem IsPart.item {items : List Node} (h : (list items).IsPart) {item : Node} (hm : item ∈ items) :
    item.IsPart := by
  rcases h with h | h
  · cases h with
    | list h => exact .inl (h item hm)
  · cases h

/-- What an object of a compiled tree has for entries: no two take one name, whatever
the dialect, and the option of a regular expression is set. -/
structure Entries (entries : List (Key × Node)) : Prop where
  distinct : ∀ dialect : Dialect, (entries.map fun entry => dialect.keyName entry.1).Nodup
  isPart : ∀ entry ∈ entries, entry.2.IsPart
  option : ∀ value, (.operator .caseInsensitive, value) ∈ entries → value = .bool true

theorem Entries.singleton {key : Key} {value : Node} (h : value.IsPart)
    (hkey : key ≠ .operator .caseInsensitive) : Entries [(key, value)] where
  distinct dialect := List.pairwise_singleton _ _
  isPart entry hm := by
    obtain rfl := List.mem_singleton.1 hm
    exact h
  option other hm := absurd (Prod.mk.inj (List.mem_singleton.1 hm)).1.symm hkey

theorem Entries.insensitive {value : Node} (h : value.IsPart) :
    Entries [(.operator .regex, value), (.operator .caseInsensitive, .bool true)] where
  distinct dialect := by
    apply List.nodup_cons.2
    constructor
    · exact fun hm => dialect.keyName_regex_ne_caseInsensitive (List.mem_singleton.1 hm)
    · exact List.pairwise_singleton _ _
  isPart entry hm := by
    rcases List.mem_cons.1 hm with rfl | hm
    · exact h
    · obtain rfl := List.mem_singleton.1 hm
      exact .inl (.bool true)
  option other hm := by
    rcases List.mem_cons.1 hm with he | hm
    · cases he
    · exact (Prod.mk.inj (List.mem_singleton.1 hm)).2

theorem operator_ne_caseInsensitive {op : Operator} (h : op ∈ Operator.relations ∨ op ∈ Operator.memberships) :
    Key.operator op ≠ .operator .caseInsensitive := by
  rintro ⟨⟩
  revert h
  decide

theorem IsPart.entries {entries : List (Key × Node)} (h : (object entries).IsPart) : Entries entries := by
  rcases h with h | h
  · cases h with
    | clauses connective h hclause =>
      apply Entries.singleton (.inl (.list h))
      cases connective <;> decide
    | equality name h => exact .singleton (.inl h) nofun
    | constrained name h => exact .singleton (.inr h) nofun
  · cases h with
    | relation hop h => exact .singleton (.inl h) (operator_ne_caseInsensitive (.inl hop))
    | membership hop hne h => exact .singleton (.inl (.list h)) (operator_ne_caseInsensitive (.inr hop))
    | insensitive h => exact .insensitive (.inl h)

theorem IsPart.of_holds {tree part : Node} (h : tree.IsPart) (hholds : tree.Holds part) : part.IsPart := by
  induction hholds with
  | self part => exact h
  | item hm hholds ih => exact ih (h.item hm)
  | value hm hholds ih => exact ih (h.entries.isPart _ hm)

/-! ## Nothing is lost -/

/-- The JSON value has each item in its place, and for each entry a member of its own. -/
def RendersInFull (dialect : Dialect) : Node → Prop
  | list items => (list items).toJson dialect = .array (items.map (toJson dialect))
  | object entries => ∃ members, (object entries).toJson dialect = .object members ∧
      members.length = entries.length ∧ (members.map Prod.fst).Nodup ∧
      members.Perm (entries.map fun entry => dialect.member entry.1 entry.2 (entry.2.toJson dialect))
  | _ => True

/-- The members that entries of different names become. -/
theorem Entries.exists_members {entries : List (Key × Node)} (h : Entries entries) (dialect : Dialect) :
    ∃ members, (object entries).toJson dialect = .object members ∧ (members.map Prod.fst).Nodup ∧
      members.Perm (entries.map fun entry => dialect.member entry.1 entry.2 (entry.2.toJson dialect)) := by
  have hnames : ((entriesToJson dialect entries).map Prod.fst).Nodup := by
    rw [entriesToJson_eq_map, List.map_map]
    simpa only [Function.comp_def, Dialect.member_fst] using h.distinct dialect
  obtain ⟨members, hobject, hperm⟩ := Json.exists_ofMembers hnames
  have hnodup := (hperm.map Prod.fst).nodup_iff.2 hnames
  rw [entriesToJson_eq_map] at hperm
  exact ⟨members, hobject, hnodup, hperm⟩

theorem IsPart.rendersInFull {part : Node} (h : part.IsPart) (dialect : Dialect) : part.RendersInFull dialect := by
  cases part with
  | list items => rw [RendersInFull, toJson, itemsToJson_eq_map]
  | object entries =>
    obtain ⟨members, hobject, hnodup, hperm⟩ := h.entries.exists_members dialect
    have hlength : members.length = entries.length := by rw [hperm.length_eq, List.length_map]
    exact ⟨members, hobject, hlength, hnodup, hperm⟩
  | _ => trivial

/-! ## From dialect to dialect -/

mutual

/-- The second value is the first one, the plain value of the tree, with the operators
of the tree spelled in the Mongo dialect. -/
inductive Respelled : Node → Json → Json → Prop where
  | null : Respelled .null .null .null
  | bool (b : Bool) : Respelled (.bool b) (.bool b) (.bool b)
  | number (n : Number) : Respelled (.number n) n.toJson n.toJson
  | string (s : String) : Respelled (.string s) (.string s) (.string s)
  | date (instant : Instant) :
      Respelled (.date instant) (.string (String.ofList instant.toText)) (.string (String.ofList instant.toText))
  | list {items : List Node} {plain mongo : List Json} (h : RespelledItems items plain mongo) :
      Respelled (.list items) (.array plain) (.array mongo)
  | object {entries : List (Key × Node)} {plain mongo members respelled : List (String × Json)}
      (h : RespelledEntries entries members respelled) (hplain : plain.Perm members)
      (hmongo : mongo.Perm respelled) : Respelled (.object entries) (.object plain) (.object mongo)

/-- The values of items, one by one. -/
inductive RespelledItems : List Node → List Json → List Json → Prop where
  | nil : RespelledItems [] [] []
  | cons {item : Node} {items : List Node} {plain mongo : Json} {plains mongos : List Json}
      (h : Respelled item plain mongo) (hrest : RespelledItems items plains mongos) :
      RespelledItems (item :: items) (plain :: plains) (mongo :: mongos)

/-- The members of entries, one by one. A field keeps its name, whatever it spells. -/
inductive RespelledEntries : List (Key × Node) → List (String × Json) → List (String × Json) → Prop where
  | nil : RespelledEntries [] [] []
  | field (name : String) {value : Node} {entries : List (Key × Node)} {plain mongo : Json}
      {plains mongos : List (String × Json)} (h : Respelled value plain mongo)
      (hrest : RespelledEntries entries plains mongos) :
      RespelledEntries ((.field name, value) :: entries) ((name, plain) :: plains) ((name, mongo) :: mongos)
  | operator {op : Operator} (hop : op ≠ .caseInsensitive) {value : Node} {entries : List (Key × Node)}
      {plain mongo : Json} {plains mongos : List (String × Json)} (h : Respelled value plain mongo)
      (hrest : RespelledEntries entries plains mongos) :
      RespelledEntries ((.operator op, value) :: entries) ((op.name, plain) :: plains)
        (("$" ++ op.name, mongo) :: mongos)
  | option {entries : List (Key × Node)} {plains mongos : List (String × Json)}
      (hrest : RespelledEntries entries plains mongos) :
      RespelledEntries ((.operator .caseInsensitive, .bool true) :: entries)
        (("caseInsensitive", .bool true) :: plains) (("$options", .string "i") :: mongos)

end

theorem respelledItems {items : List Node}
    (h : ∀ item ∈ items, Respelled item (item.toJson .plain) (item.toJson .mongo)) :
    RespelledItems items (items.map (toJson .plain)) (items.map (toJson .mongo)) := by
  induction items with
  | nil => exact .nil
  | cons item items ih =>
    apply RespelledItems.cons (h item List.mem_cons_self)
    exact ih fun other hm => h other (List.mem_cons_of_mem _ hm)

theorem respelledEntries {entries : List (Key × Node)}
    (hoption : ∀ value, (.operator .caseInsensitive, value) ∈ entries → value = .bool true)
    (h : ∀ entry ∈ entries, Respelled entry.2 (entry.2.toJson .plain) (entry.2.toJson .mongo)) :
    RespelledEntries entries
      (entries.map fun entry => Dialect.plain.member entry.1 entry.2 (entry.2.toJson .plain))
      (entries.map fun entry => Dialect.mongo.member entry.1 entry.2 (entry.2.toJson .mongo)) := by
  induction entries with
  | nil => exact .nil
  | cons entry entries ih =>
    have hrest := ih (fun value hm => hoption value (List.mem_cons_of_mem _ hm))
      (fun other hm => h other (List.mem_cons_of_mem _ hm))
    have hvalue := h entry List.mem_cons_self
    obtain ⟨key, value⟩ := entry
    cases key with
    | field name => exact .field name hvalue hrest
    | operator op =>
      by_cases hop : op = .caseInsensitive
      · subst hop
        obtain rfl := hoption value List.mem_cons_self
        exact .option hrest
      · have hmongo : Dialect.mongo.member (.operator op) value (value.toJson .mongo) =
            ("$" ++ op.name, value.toJson .mongo) := by
          rw [← Dialect.operatorKey_mongo hop]
          cases op with
          | caseInsensitive => exact absurd rfl hop
          | _ => rfl
        rw [List.map_cons, List.map_cons, hmongo]
        exact .operator hop hvalue hrest

theorem IsPart.respelled {tree : Node} (h : tree.IsPart) :
    tree.Respelled (tree.toJson .plain) (tree.toJson .mongo) := by
  induction tree using Node.induction with
  | null => exact .null
  | bool b => exact .bool b
  | number n => exact .number n
  | string s => exact .string s
  | date instant => exact .date instant
  | list items ih =>
    rw [toJson, toJson, itemsToJson_eq_map, itemsToJson_eq_map]
    exact .list (respelledItems fun item hm => ih item hm (h.item hm))
  | object entries ih =>
    obtain ⟨plain, hplain, -, hpermPlain⟩ := h.entries.exists_members .plain
    obtain ⟨mongo, hmongo, -, hpermMongo⟩ := h.entries.exists_members .mongo
    rw [hplain, hmongo]
    apply Respelled.object _ hpermPlain hpermMongo
    exact respelledEntries h.entries.option fun entry hm => ih entry hm (h.entries.isPart entry hm)

end Node

namespace Table

/-- Rendering what is compiled loses no item and no entry, at no depth and in neither
dialect, and the dialects differ in how operators are spelled and in nothing else. -/
theorem rendered_compileAt (table : Table) (clock : Instant) (ceiling depth : Nat) (text : Text) :
    (∀ dialect part, (table.compileAt clock ceiling depth text).Holds part → part.RendersInFull dialect) ∧
      (table.compileAt clock ceiling depth text).Respelled
        ((table.compileAt clock ceiling depth text).toJson .plain)
        ((table.compileAt clock ceiling depth text).toJson .mongo) := by
  have h : (table.compileAt clock ceiling depth text).IsPart :=
    .inl (table.wellFormed_compileWithin clock (ceiling + 1 - depth) text)
  exact ⟨fun dialect part hpart => (h.of_holds hpart).rendersInFull dialect, h.respelled⟩

/-- A field that is spelled like an operator, with the one constraint of two entries under it. -/
theorem rendered_compileAt_insensitive :
    let clock : Instant := ⟨0, 0, by decide, by decide, by decide⟩
    let constraint : Node := .object [(.operator .regex, .string "b"), (.operator .caseInsensitive, .bool true)]
    (Table.empty.compileAt clock 256 0 "caseInsensitive~*b".toList).Holds constraint ∧
      constraint.RendersInFull .mongo ∧
      constraint.toJson .mongo = .object [("$options", .string "i"), ("$regex", .string "b")] := by
  intro clock constraint
  have htree : Table.empty.compileAt clock 256 0 "caseInsensitive~*b".toList =
      .ofField "caseInsensitive" constraint := rfl
  have hpart : (Table.empty.compileAt clock 256 0 "caseInsensitive~*b".toList).Holds constraint := by
    rw [htree]
    exact .value List.mem_cons_self (.self constraint)
  exact ⟨hpart, (rendered_compileAt .empty clock 256 0 "caseInsensitive~*b".toList).1 .mongo constraint hpart, rfl⟩

end Table

end FilterQuery
