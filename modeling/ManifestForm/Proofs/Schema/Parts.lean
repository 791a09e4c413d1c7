import ManifestForm.Schema.Codec
import Mathlib.Logic.Relation

/-!
# Parts of schemas

Right below an inline schema stand the schemas of its properties, of its items, of the members of
its composition and of the values of its map. Going from a schema to a part comes to an end, so a
statement holds of every schema if it holds of each one of whose parts it holds.
-/

namespace ManifestForm.Schema

/-- A schema that stands right below another one. -/
inductive HasPart : Schema → Schema → Prop
  | property {o : SchemaObject Schema} {ps : List (String × Schema)} {field : String}
      {part : Schema} (hp : o.properties = some ps) (hmem : (field, part) ∈ ps) :
      HasPart (.inline o) part
  | items {o : SchemaObject Schema} {part : Schema} (hi : o.items = some part) :
      HasPart (.inline o) part
  | member {o : SchemaObject Schema} {members : List Schema} {part : Schema}
      (hm : o.allOf = some members) (hmem : part ∈ members) : HasPart (.inline o) part
  | values {o : SchemaObject Schema} {part : Schema} (ha : o.additional = some (.values part)) :
      HasPart (.inline o) part

theorem HasPart.sizeOf_lt {s part : Schema} (h : HasPart s part) : sizeOf part < sizeOf s := by
  cases h with
  | @property o ps field part hp hmem =>
      obtain ⟨type, format, description, properties, items, allOf, additional⟩ := o
      cases hp
      have hentry := List.sizeOf_lt_of_mem hmem
      simp at hentry ⊢
      omega
  | @items o part hi =>
      obtain ⟨type, format, description, properties, items, allOf, additional⟩ := o
      cases hi
      simp
      omega
  | @member o members part hm hmem =>
      obtain ⟨type, format, description, properties, items, allOf, additional⟩ := o
      cases hm
      have hmember := List.sizeOf_lt_of_mem hmem
      simp at hmember ⊢
      omega
  | @values o part ha =>
      obtain ⟨type, format, description, properties, items, allOf, additional⟩ := o
      cases ha
      simp
      omega

theorem wellFounded_hasPart : WellFounded fun part s => HasPart s part :=
  Subrelation.wf HasPart.sizeOf_lt (measure sizeOf).wf

/-- What holds of a schema whenever it holds of its parts holds of every schema. -/
theorem inductionOn {P : Schema → Prop} (s : Schema)
    (step : ∀ s, (∀ part, HasPart s part → P part) → P s) : P s :=
  wellFounded_hasPart.induction s step

end ManifestForm.Schema
