import FilterQuery.Proofs.Json.RoundTrip
/-!
# Batches

A batch is read, converted item by item and written. Reading gives back the strings that
were written, and all other values become null, so what is read for a value is converted
as the value itself would be.
-/

namespace FilterQuery

/-- What the reader changes of a value does not count for its conversion. -/
theorem convertJson_reread (clock : Instant) (dialect : Dialect) (value : Json) :
    convertJson clock dialect value.reread = convertJson clock dialect value := by
  cases value with
  | null => rfl
  | bool b => rfl
  | number n => rfl
  | string s => rfl
  | array items => rfl
  | object members => rfl

namespace Report

/-- A batch of written values, in either layout, gives an array with one item for each value, in
its place and made of this value alone: a string is converted, and all else becomes null. -/
theorem batch_render {values : List Json} (h : ∀ value ∈ values, value.Fits 126) (clock : Instant)
    (dialect : Dialect) (isPretty isIndented : Bool) :
    batch clock dialect isPretty (some ((Json.array values).render isIndented)) =
      .ok ((Json.array (values.map fun value =>
        match value with
        | .string query => (FilterQuery.convert clock query).toJson dialect
        | _ => .null)).render isPretty) := by
  have hread : Json.read? ((Json.array values).render isIndented).toList = some (Json.array values).reread :=
    Json.read?_render isIndented (.array h)
  have hconvert : (values.map Json.reread).map (convertJson clock dialect) = values.map fun value =>
      match value with
      | .string query => (FilterQuery.convert clock query).toJson dialect
      | _ => .null := by
    rw [List.map_map]
    refine List.map_congr_left fun value _ => ?_
    rw [Function.comp_apply, convertJson_reread]
    cases value <;> rfl
  rw [Json.reread, Json.rereadItems_eq_map] at hread
  rw [← hconvert]
  simp only [batch, hread]
  rfl

/-- Escapes and values of all kinds in one batch. -/
theorem batch_render_mixed :
    let values : List Json := [.string "a = \"\\\"\n", .number (.real (.finite true ⟨1, by decide⟩)), .null,
      .array [.object [("b", .string "x=1"), ("a", .number (.integer (-7)))]], .string "null"]
    (∀ value ∈ values, value.Fits 126) ∧
      ∀ clock, batch clock .mongo false (some ((Json.array values).render true)) =
        .ok ((Json.array [(FilterQuery.convert clock "a = \"\\\"\n").toJson .mongo, .null, .null, .null,
          (FilterQuery.convert clock "null").toJson .mongo]).render false) := by
  intro values
  have hobject : (Json.object [("b", .string "x=1"), ("a", .number (.integer (-7)))]).Fits 125 := by
    apply Json.Fits.object
    simp only [List.forall_mem_cons]
    exact ⟨.string _ _, .number _ (by simp [Number.IsWritten]), nofun⟩
  have hvalues : ∀ value ∈ values, value.Fits 126 := by
    simp only [values, List.forall_mem_cons]
    refine ⟨.string _ _, .number _ rfl, .null _, .array ?_, .string _ _, nofun⟩
    simpa only [List.forall_mem_singleton] using hobject
  exact ⟨hvalues, fun clock => batch_render hvalues clock .mongo false true⟩

end Report

end FilterQuery
