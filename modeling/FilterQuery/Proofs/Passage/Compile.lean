import FilterQuery.Convert
import FilterQuery.Proofs.Passage.Expand
import FilterQuery.Proofs.Passage.Shape
/-!
# Compiling passages

`Passage.compileWithin` compiles a passage without a table: a key is compiled as what
it stands for. `Register.compileWithin_spell` says that the compiler does the same
with the spelled passage and the table, as long as the suffix is fresh.
-/

namespace FilterQuery

namespace Shape

variable {σ τ : Type}

theorem node_map (f : σ → τ) (spell : τ → Text) (compile : τ → Node) (shape : Shape σ) :
    (shape.map f).node spell compile = shape.node (spell ∘ f) (compile ∘ f) := by
  cases shape <;> simp [map, node]

/-- The tree of a shape depends on how its parts are compiled only. -/
theorem node_congr {spell : τ → Text} {compile compile' : τ → Node} {shape : Shape τ}
    (h : ∀ a ∈ shape.parts, compile a = compile' a) :
    shape.node spell compile = shape.node spell compile' := by
  cases shape with
  | list items =>
    have hitems : items.map compile = items.map compile' := List.map_congr_left h
    rw [node, node, hitems]
  | comparison symbol left right =>
    rw [node, node, h left (by simp [parts]), h right (by simp [parts])]
  | clauses connective parts =>
    have hparts : parts.map compile = parts.map compile' := List.map_congr_left h
    rw [node, node, hparts]
  | _ => rfl

end Shape

namespace Passage

/-- Compiles a passage with a number of levels to go, keys as what they stand for. The
suffix shows where text with a key in it is read. -/
def compileWithin (suffix : Text) (clock : Instant) : (levels : Nat) → Passage → Node
  | 0, _ => .null
  | levels + 1, p => (shape clock (unwrap p)).node (spell suffix) (compileWithin suffix clock levels)

/-- A key that stands alone is compiled as what it stands for. -/
theorem compileWithin_key (suffix : Text) (clock : Instant) (levels number : Nat) (tier : Tier)
    (value : Passage) :
    compileWithin suffix clock levels [.key number tier value] = compileWithin suffix clock levels value := by
  cases levels with
  | zero => rfl
  | succ levels => rw [compileWithin, compileWithin, unwrap_key]

end Passage

namespace Register

open Passage

/-- Compiling the spelling of a passage with the table of its lifts compiles the
passage. The levels that are left bound both. -/
theorem compileWithin_spell {suffix : Text} (hs : Suffix.IsHex suffix) {register : Register}
    (hr : register.Sound) (clock : Instant) (levels : Nat) {p : Passage}
    (h : Known suffix register.newestFirst p) :
    (register.table suffix).compileWithin clock levels (Passage.spell suffix p) =
      Passage.compileWithin suffix clock levels p := by
  induction levels generalizing p with
  | zero => rfl
  | succ levels ih =>
    have hparts : ∀ q ∈ (shape clock (unwrap p)).parts,
        (register.table suffix).compileWithin clock levels (Passage.spell suffix q) =
          Passage.compileWithin suffix clock levels q :=
      fun q hq => ih ((h.unwrap hr.layered).mono (infix_of_shape (Shape.parts_subset_contents _ hq)))
    rw [Table.compileWithin, resolve?_spell hs hr h.within (h.fresh.clear _)]
    simp only [ofText_spell hs, Shape.node_map]
    exact Shape.node_congr hparts

end Register

namespace Tokenized

/-- The tree of a tokenized input. -/
def tree (tokenized : Tokenized) (clock : Instant) : Node :=
  tokenized.table.compile clock tokenized.skeleton

end Tokenized

namespace Tokenized

open Passage

/-- Tokenizing and compiling is compiling the passage that the input is taken apart to, if
all keys in it are its own. -/
theorem tree_of_known {suffix : Text} (hs : Suffix.IsHex suffix) {input : Text}
    (h : Known suffix (tokenize input).2.newestFirst (tokenize input).1) (clock : Instant) :
    (ofText suffix input).tree clock =
      Passage.compileWithin suffix clock (defaultCeiling + 1) (tokenize input).1 := by
  rw [tree, table_ofText hs, ofText_eq hs]
  exact Register.compileWithin_spell hs (tokenize_sound input).1 clock _ h

/-- Keys are their own if none of the suffix is written in the input, blanks left out. -/
theorem tree_ofText {suffix : Text} (hs : Suffix.IsHex suffix) {input : Text}
    (h : ∀ n, ¬ Minter.key suffix n <:+: input.dropBlanks) (clock : Instant) :
    (ofText suffix input).tree clock =
      Passage.compileWithin suffix clock (defaultCeiling + 1) (tokenize input).1 :=
  tree_of_known hs (known_tokenize hs h) clock

end Tokenized

open Passage

/-- Converting is compiling what the input is taken apart to, if no key of it is written by
hand. -/
theorem convertWith_eq {suffix input : Text} (hs : Suffix.IsHex suffix) {c : Char} (hc : isBlank c = false)
    (hm : c ∈ input) (hf : Fresh suffix (tokenize input).1) (clock : Instant) :
    convertWith suffix clock input = compileWithin suffix clock (defaultCeiling + 1) (tokenize input).1 := by
  have htrim : input.trim ≠ [] := List.ne_nil_of_mem (Text.mem_trim hc hm)
  rw [← Tokenized.tree_of_known hs ⟨(tokenize_sound input).2, hf⟩, convertWith, if_neg htrim]
  rfl

end FilterQuery
