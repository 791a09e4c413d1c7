import ManifestForm.Proofs.Schema.InPlace
import Mathlib.Data.List.Forall2

/-!
# What inlining leaves alone

Along a path with no reference on it inlining goes from schema to schema with nothing replaced. The
object at the end keeps its entries one by one. Only the schemas in them are expanded, each where it
stands.
-/

namespace ManifestForm.Schema

/-- What inlining leaves of an entry: its key, and its value if no schemas stand in it, else the
names of properties in their order, or the number of members of a composition. -/
structure EntryKept (before after : String × Json) : Prop where
  key : after.1 = before.1
  value : before.1 ∉ keywords → after.2 = before.2
  names : before.1 = "properties" →
    after.2.object?.map Json.Object.keys = before.2.object?.map Json.Object.keys
  members : isComposition before.1 = true →
    after.2.array?.map List.length = before.2.array?.map List.length

theorem object?_mapEntry_properties (f : Json → Json) (v : Json) :
    (mapEntry f "properties" v).object?.map Json.Object.keys =
      v.object?.map Json.Object.keys := by
  have hkey : isComposition "properties" = false := by decide
  cases v with
  | arr members => simp [mapEntry, hkey, Json.object?]
  | obj properties => simp [mapEntry, Json.object?, Json.Object.keys, Function.comp_def]
  | _ => rfl

theorem entryKept_mapEntry (f : Json → Json) (key : String) (v : Json) :
    EntryKept (key, v) (key, mapEntry f key v) where
  key := rfl
  value := fun h => mapEntry_of_not_mem_keywords h f v
  names := by
    rintro rfl
    exact object?_mapEntry_properties f v
  members := by
    intro h
    rw [array?_mapEntry h]
    cases v.array? with
    | none => rfl
    | some members => simp

section Path

variable {components : Json.Object} {opened : List String}

/-- Where no prefix of a path ends at a reference, the path leads to the same schema expanded, with
one step taken for each position. -/
theorem schemaAt?_expand {path : List Position} {steps : Nat} (hsteps : path.length ≤ steps)
    {v : Json} (h : ∀ front, front <+: path → ¬ HasReferenceAt v front) :
    schemaAt? path (expand components (steps + 1) opened v) =
      (schemaAt? path v).map (expand components (steps + 1 - path.length) opened) := by
  induction path generalizing steps v with
  | nil => rfl
  | cons p path ih =>
      obtain ⟨below, rfl⟩ : ∃ below, steps = below + 1 := ⟨steps - 1, by
        rw [List.length_cons] at hsteps; omega⟩
      have href : reference? v = none := by
        cases href : reference? v with
        | none => rfl
        | some text =>
            have hroot : HasReferenceAt v [] := ⟨v, text, rfl, reference?_eq_some_iff.mp href⟩
            exact absurd hroot (h [] List.nil_prefix)
      rw [schemaAt?, schemaAt?, schema?_expand href]
      cases hu : p.schema? v with
      | none => rfl
      | some u =>
          have hbelow : ∀ front, front <+: path → ¬ HasReferenceAt u front := by
            intro front hfront hreference
            apply h (p :: front) (List.cons_prefix_cons.mpr ⟨rfl, hfront⟩)
            exact hasReferenceAt_cons_iff.mpr ⟨u, hu, hreference⟩
          have hlength : path.length ≤ below := by
            rw [List.length_cons] at hsteps
            omega
          have hleft : below + 1 + 1 - (p :: path).length = below + 1 - path.length := by
            rw [List.length_cons]
            omega
          rw [hleft]
          exact ih hlength hbelow

/-- At the end of a path on which no reference stands, expansion leaves an object with the entries
of the one that stood there, each of them kept. -/
theorem exists_entriesKept_expand {schema : Json} {path : List Position} {steps : Nat}
    (hlength : path.length ≤ steps)
    (hpath : ∀ front, front <+: path → ¬ HasReferenceAt schema front) {kvs : Json.Object}
    (hobject : schemaAt? path schema = some (.obj kvs)) :
    ∃ kvs', schemaAt? path (expand components (steps + 1) opened schema) = some (.obj kvs') ∧
      List.Forall₂ EntryKept kvs kvs' := by
  have href : reference? (.obj kvs) = none := by
    cases href : reference? (.obj kvs) with
    | none => rfl
    | some text =>
        have hend : HasReferenceAt schema path :=
          ⟨.obj kvs, text, hobject, reference?_eq_some_iff.mp href⟩
        exact absurd hend (hpath path List.prefix_rfl)
  obtain ⟨left, hleft⟩ : ∃ left, steps + 1 - path.length = left + 1 :=
    ⟨steps - path.length, by omega⟩
  have hend : schemaAt? path (expand components (steps + 1) opened schema) =
      some (expand components (left + 1) opened (.obj kvs)) := by
    rw [schemaAt?_expand hlength hpath, hobject, hleft, Option.map_some]
  rw [expand_obj href] at hend
  refine ⟨_, hend, ?_⟩
  rw [List.forall₂_map_right_iff, List.forall₂_same]
  rintro ⟨key, v⟩ _
  exact entryKept_mapEntry _ key v

/-- At the end of a path of at most as many positions as the limit, on which no reference stands,
inlining leaves an object with the entries of the one that stood there, each of them kept. -/
theorem entries_kept_dereference {schema : Json} {path : List Position}
    (hlength : path.length ≤ maxSteps)
    (hpath : ∀ front, front <+: path → ¬ HasReferenceAt schema front) {kvs : Json.Object}
    (hobject : schemaAt? path schema = some (.obj kvs)) :
    ∃ kvs', schemaAt? path (dereference components schema) = some (.obj kvs') ∧
      List.Forall₂ EntryKept kvs kvs' :=
  exists_entriesKept_expand hlength hpath hobject

/-- The walk in place leaves an object there with the same entries kept. -/
theorem exists_entriesKept_expandInPlace (components : Json.DistinctObject) (schema : Json.Distinct)
    {path : List Position} (hlength : path.length ≤ maxSteps)
    (hpath : ∀ front, front <+: path → ¬ HasReferenceAt schema.value front) {kvs : Json.Object}
    (hobject : schemaAt? path schema.value = some (.obj kvs)) :
    ∃ kvs',
      schemaAt? path ((expandInPlace components.entries (maxSteps + 1) schema.value).run ∅).1 =
        some (.obj kvs') ∧
      List.Forall₂ EntryKept kvs kvs' := by
  have hinPlace : (expandInPlace components.entries (maxSteps + 1) schema.value).run ∅ =
      (expand components.entries (maxSteps + 1) [] schema.value, ∅) :=
    restores_expandInPlace components schema []
  rw [hinPlace]
  exact exists_entriesKept_expand hlength hpath hobject

end Path

/-- A schema with a field whose items and one of whose alternatives are references. -/
def fieldOfCells : Json :=
  .obj
    [("properties", .obj
      [("cells", .obj
        [("default", .arr []),
          ("anyOf", .arr [.obj [("$ref", .str "Cell")], .obj [("minItems", .num (.int 1))]]),
          ("items", .obj [("$ref", .str "Cell")]),
          ("description", .str "all cells")])])]

/-- Around the two expansions the field keeps its four entries. -/
theorem entries_kept_fieldOfCells :
    [Position.property "cells"].length ≤ maxSteps ∧
      (∀ front, front <+: [Position.property "cells"] → ¬ HasReferenceAt fieldOfCells front) ∧
      ∃ kvs kvs', schemaAt? [.property "cells"] fieldOfCells = some (.obj kvs) ∧
        schemaAt? [.property "cells"]
          (dereference [("Cell", .obj [("type", .str "string")])] fieldOfCells) =
            some (.obj kvs') ∧
        Json.Object.keys kvs = ["default", "anyOf", "items", "description"] ∧
        List.Forall₂ EntryKept kvs kvs' := by
  have hlength : [Position.property "cells"].length ≤ maxSteps := by decide
  have hpath : ∀ front, front <+: [Position.property "cells"] →
      ¬ HasReferenceAt fieldOfCells front := by
    intro front hfront hreference
    cases front with
    | nil => exact not_hasReferenceAt_nil rfl hreference
    | cons p front =>
        obtain ⟨rfl, hrest⟩ := List.cons_prefix_cons.mp hfront
        obtain rfl := List.prefix_nil.mp hrest
        obtain ⟨u, hu, hreference⟩ := hasReferenceAt_cons_iff.mp hreference
        obtain rfl := Option.some.inj hu
        exact not_hasReferenceAt_nil rfl hreference
  refine ⟨hlength, hpath, ?_⟩
  obtain ⟨kvs', hend, hkept⟩ := entries_kept_dereference hlength hpath rfl
  exact ⟨_, kvs', rfl, hend, rfl, hkept⟩

end ManifestForm.Schema
