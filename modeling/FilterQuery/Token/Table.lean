import FilterQuery.Text.Basic
/-!
# The token table

A table says what each token key stands for. It keeps every entry in the order
of storing; a look-up of a key that was stored twice gives the later value.

`resolve?` follows a text through the table until it is no key. A chain that
takes more look-ups than there are entries has no end.
-/

namespace FilterQuery

/-- A stored key with the text that it stands for. -/
structure Entry where
  key : Text
  value : Text
  deriving DecidableEq

/-- The entries that a tokenizer stored. -/
structure Table where
  newestFirst : List Entry
  deriving DecidableEq

namespace Table

/-- The table without entries. -/
def empty : Table := ⟨[]⟩

/-- All entries in the order of storing. -/
def toList (table : Table) : List Entry := table.newestFirst.reverse

/-- The number of entries. -/
def size (table : Table) : Nat := table.newestFirst.length

/-- The value that was last stored for a key. -/
def get? (table : Table) (key : Text) : Option Text :=
  (table.newestFirst.find? (·.key = key)).map (·.value)

/-- The text has been stored as a key. -/
def contains (table : Table) (key : Text) : Bool := (table.get? key).isSome

/-- Follows a text through the table, with a number of look-ups to spare. -/
def follow? (table : Table) : (lookups : Nat) → Text → Option Text
  | 0, _ => none
  | lookups + 1, text =>
    match table.get? text with
    | some value => follow? table lookups value
    | none => some text

/-- The text that a text leads to and that is no key itself. -/
def resolve? (table : Table) (text : Text) : Option Text := table.follow? (table.size + 1) text

theorem size_eq_length_toList (table : Table) : table.size = table.toList.length := by
  simp [size, toList]

end Table

end FilterQuery
