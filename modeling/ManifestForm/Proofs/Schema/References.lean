import ManifestForm.Proofs.Json.Object
import ManifestForm.Schema.Dereference
import Mathlib.Data.Option.Basic

/-!
# References left by inlining

Inlining walks through the positions of a schema and into the components that it opens. It cuts its
walk at a reference to an open or unknown component, and where no steps are left. From the node
there it takes the reference away, but what stands below that node is returned as it is. So the
result has a reference at a position exactly if the walk is cut above a reference.
-/

namespace ManifestForm.Schema

/-- A position for a schema right below a schema. -/
inductive Position where
  | allOf (index : Nat)
  | anyOf (index : Nat)
  | oneOf (index : Nat)
  | property (name : String)
  | items
  | not
  | additionalProperties
  deriving DecidableEq, Repr

/-- The member of a composition at an index. -/
def member? (composition : String) (index : Nat) (v : Json) : Option Json :=
  ((v.get? composition).bind Json.array?).bind (·[index]?)

/-- The schema at a position. -/
def Position.schema? : Position → Json → Option Json
  | .allOf i, v => member? "allOf" i v
  | .anyOf i, v => member? "anyOf" i v
  | .oneOf i, v => member? "oneOf" i v
  | .property name, v => (v.get? "properties").bind (Json.get? name)
  | .items, v => v.get? "items"
  | .not, v => v.get? "not"
  | .additionalProperties, v => v.get? "additionalProperties"

/-- The schema at the end of a path of positions. -/
def schemaAt? : List Position → Json → Option Json
  | [], v => some v
  | p :: path, v => (p.schema? v).bind (schemaAt? path)

/-- At the end of the path stands an object with a text as its reference. -/
def HasReferenceAt (v : Json) (path : List Position) : Prop :=
  ∃ w text, schemaAt? path v = some w ∧ w.get? "$ref" = some (.str text)

theorem reference?_eq_some_iff {v : Json} {text : String} :
    reference? v = some text ↔ v.get? "$ref" = some (.str text) := by
  rw [reference?, Option.bind_eq_some_iff]
  constructor
  · rintro ⟨w, hw, htext⟩
    cases w with
    | str t =>
        rw [hw, Option.some.inj htext]
    | _ => cases htext
  · intro h
    exact ⟨.str text, h, rfl⟩

theorem not_hasReferenceAt_nil {v : Json} (h : reference? v = none) : ¬ HasReferenceAt v [] := by
  rintro ⟨w, text, hw, htext⟩
  obtain rfl := Option.some.inj hw
  rw [reference?_eq_some_iff.mpr htext] at h
  cases h

/-- A reference on a longer path stands in the schema at its first position. -/
theorem hasReferenceAt_cons_iff {v : Json} {p : Position} {path : List Position} :
    HasReferenceAt v (p :: path) ↔ ∃ u, p.schema? v = some u ∧ HasReferenceAt u path := by
  constructor
  · rintro ⟨w, text, hw, htext⟩
    obtain ⟨u, hu, hw⟩ := Option.bind_eq_some_iff.mp hw
    exact ⟨u, hu, w, text, hw, htext⟩
  · rintro ⟨u, hu, w, text, hw, htext⟩
    exact ⟨w, text, Option.bind_eq_some_iff.mpr ⟨u, hu, hw⟩, htext⟩

section Steps

theorem schema?_of_object?_eq_none {v : Json} (h : v.object? = none) (p : Position) :
    p.schema? v = none := by
  cases v with
  | obj kvs => cases h
  | _ => cases p <;> rfl

/-- Of a schema whose reference is left out all other members stay. -/
theorem get?_stripReference (v : Json.Distinct) (name : String) :
    (stripReference v.value).get? name = if name = "$ref" then none else v.value.get? name := by
  obtain ⟨v, h⟩ := v
  cases v with
  | obj kvs => exact Json.Object.lookup_swapErase (Json.keysApart_obj_iff.mp h).1 "$ref" name
  | _ => exact (ite_self none).symm

/-- No position is lost with the reference. -/
theorem schema?_stripReference (v : Json.Distinct) (p : Position) :
    p.schema? (stripReference v.value) = p.schema? v.value := by
  have hget {name : String} (hname : name ≠ "$ref") :
      (stripReference v.value).get? name = v.value.get? name := by
    rw [get?_stripReference, if_neg hname]
  cases p <;> simp only [Position.schema?, member?] <;> rw [hget (by decide)]

theorem keysApart_of_schema? {v u : Json} (h : v.KeysApart) {p : Position}
    (hu : p.schema? v = some u) : u.KeysApart := by
  have hmember {composition : String} {i : Nat} (hu : member? composition i v = some u) :
      u.KeysApart := by
    obtain ⟨members, hmembers, hu⟩ := Option.bind_eq_some_iff.mp hu
    obtain ⟨w, hw, hmembers⟩ := Option.bind_eq_some_iff.mp hmembers
    cases w with
    | arr vs =>
        obtain rfl := Option.some.inj hmembers
        exact Json.keysApart_arr_iff.mp (h.of_get? hw) u (List.mem_of_getElem? hu)
    | _ => cases hmembers
  cases p with
  | allOf i => exact hmember hu
  | anyOf i => exact hmember hu
  | oneOf i => exact hmember hu
  | property name =>
      obtain ⟨w, hw, hu⟩ := Option.bind_eq_some_iff.mp hu
      exact (h.of_get? hw).of_get? hu
  | items => exact h.of_get? hu
  | not => exact h.of_get? hu
  | additionalProperties => exact h.of_get? hu

theorem exists_of_schema? (v : Json.Distinct) {p : Position} {u : Json}
    (hu : p.schema? v.value = some u) : ∃ w : Json.Distinct, w.value = u :=
  ⟨⟨u, keysApart_of_schema? v.keysApart hu⟩, rfl⟩

/-- Stripping takes the reference of the node itself and no other. -/
theorem hasReferenceAt_stripReference_iff (v : Json.Distinct) {path : List Position} :
    HasReferenceAt (stripReference v.value) path ↔ path ≠ [] ∧ HasReferenceAt v.value path := by
  cases path with
  | nil =>
      have hroot : reference? (stripReference v.value) = none := by
        rw [reference?, get?_stripReference, if_pos rfl, Option.bind_none]
      simp [not_hasReferenceAt_nil hroot]
  | cons p path =>
      rw [hasReferenceAt_cons_iff, hasReferenceAt_cons_iff, schema?_stripReference]
      simp

/-- In a composition every member is mapped. -/
theorem array?_mapEntry {f : Json → Json} {key : String} (h : isComposition key = true)
    (v : Json) : (mapEntry f key v).array? = v.array?.map (List.map f) := by
  have hkeys : key ≠ "properties" ∧ isSubschema key = false := by
    simp only [isComposition, Bool.or_eq_true, decide_eq_true_eq] at h
    rcases h with (rfl | rfl) | rfl <;> decide
  cases v with
  | arr members => simp [mapEntry, h, Json.array?]
  | obj kvs => simp [mapEntry, hkeys, Json.array?]
  | _ => rfl

theorem get?_mapEntry_properties (f : Json → Json) (v : Json) (name : String) :
    (mapEntry f "properties" v).get? name = (v.get? name).map f := by
  have hkey : isComposition "properties" = false := by decide
  cases v with
  | arr members => simp [mapEntry, hkey, Json.get?]
  | obj kvs =>
      rw [mapEntry, if_pos rfl]
      exact Json.Object.lookup_map_values (fun _ => f) kvs name
  | _ => rfl

theorem mapEntry_of_isSubschema {f : Json → Json} (hf : ∀ v, v.object? = none → f v = v)
    {key : String} (h : isSubschema key = true) (v : Json) : mapEntry f key v = f v := by
  have hkeys : key ≠ "properties" ∧ isComposition key = false := by
    simp only [isSubschema, Bool.or_eq_true, decide_eq_true_eq] at h
    rcases h with (rfl | rfl) | rfl <;> decide
  cases v with
  | arr members => simp [mapEntry, hkeys, hf (.arr members) rfl]
  | obj kvs => simp [mapEntry, hkeys, h]
  | _ => exact (hf _ rfl).symm

/-- The reference itself is no schema. -/
theorem mapEntry_reference (f : Json → Json) (v : Json) : mapEntry f "$ref" v = v := by
  have hkey : isComposition "$ref" = false ∧ isSubschema "$ref" = false := by decide
  cases v with
  | arr members => simp [mapEntry, hkey]
  | obj kvs => simp [mapEntry, hkey]
  | _ => rfl

section Entries

variable {f : Json → Json} {kvs : Json.Object}

/-- Entries are found mapped under the names they had. -/
theorem get?_mapEntries (name : String) :
    (Json.obj (kvs.map fun (k, v) => (k, mapEntry f k v))).get? name =
      ((Json.obj kvs).get? name).map (mapEntry f name) :=
  Json.Object.lookup_map_values (mapEntry f) kvs name

theorem member?_mapEntries {composition : String} (h : isComposition composition = true)
    (i : Nat) :
    member? composition i (.obj (kvs.map fun (k, v) => (k, mapEntry f k v))) =
      (member? composition i (.obj kvs)).map f := by
  rw [member?, member?, get?_mapEntries]
  cases (Json.obj kvs).get? composition with
  | none => rfl
  | some w =>
      rw [Option.map_some, Option.bind_some, Option.bind_some, array?_mapEntry h]
      cases w.array? with
      | none => rfl
      | some members => exact List.getElem?_map

/-- The schemas of a node are mapped where they stand. -/
theorem schema?_mapEntries (hf : ∀ v, v.object? = none → f v = v) (p : Position) :
    p.schema? (.obj (kvs.map fun (k, v) => (k, mapEntry f k v))) =
      (p.schema? (.obj kvs)).map f := by
  have hsubschema {key : String} (h : isSubschema key = true) :
      (Json.obj (kvs.map fun (k, v) => (k, mapEntry f k v))).get? key =
        ((Json.obj kvs).get? key).map f := by
    rw [get?_mapEntries, funext (mapEntry_of_isSubschema hf h)]
  cases p with
  | allOf i => exact member?_mapEntries (by decide) i
  | anyOf i => exact member?_mapEntries (by decide) i
  | oneOf i => exact member?_mapEntries (by decide) i
  | property name =>
      rw [Position.schema?, Position.schema?, get?_mapEntries]
      cases (Json.obj kvs).get? "properties" with
      | none => rfl
      | some w => exact get?_mapEntry_properties f w name
  | items => exact hsubschema (by decide)
  | not => exact hsubschema (by decide)
  | additionalProperties => exact hsubschema (by decide)

end Entries

end Steps

section Walk

/-- A node in the walk, with the steps left for it and the components opened on the way. -/
structure Visit where
  left : Nat
  opened : List String
  node : Json

/-- Nothing is inlined from this visit on. -/
inductive IsCut (components : Json.Object) : Visit → Prop
  | deep {opened : List String} {node : Json} : IsCut components ⟨0, opened, node⟩
  | circular {steps : Nat} {opened : List String} {node : Json} {text : String}
      (href : reference? node = some text) (hopened : componentName text ∈ opened) :
      IsCut components ⟨steps + 1, opened, node⟩
  | unknown {steps : Nat} {opened : List String} {node : Json} {text : String}
      (href : reference? node = some text)
      (hunknown : components.lookup (componentName text) = none) :
      IsCut components ⟨steps + 1, opened, node⟩

/-- The walk leads from a visit along a path to another one. Opening a component adds nothing to
the path. -/
inductive Reaches (components : Json.Object) : List Position → Visit → Visit → Prop
  | here {v : Visit} : Reaches components [] v v
  | opening {path : List Position} {steps : Nat} {opened : List String} {node target : Json}
      {text : String} {v : Visit} (href : reference? node = some text)
      (hnew : componentName text ∉ opened)
      (htarget : components.lookup (componentName text) = some target)
      (h : Reaches components path ⟨steps, componentName text :: opened, target⟩ v) :
      Reaches components path ⟨steps + 1, opened, node⟩ v
  | descending {path : List Position} {p : Position} {steps : Nat} {opened : List String}
      {node u : Json} {v : Visit} (href : reference? node = none) (hu : p.schema? node = some u)
      (h : Reaches components path ⟨steps, opened, u⟩ v) :
      Reaches components (p :: path) ⟨steps + 1, opened, node⟩ v

/-- On the path the walk is cut, and a reference stands at the end of the path in what is below the
cut. -/
def CutAboveReference (components : Json.Object) (v : Visit) (path : List Position) : Prop :=
  ∃ front p back w, path = front ++ p :: back ∧ Reaches components front v w ∧
    IsCut components w ∧ HasReferenceAt w.node (p :: back)

end Walk

section Walk

variable {components : Json.Object} {steps : Nat} {opened : List String} {node : Json}
  {path : List Position}

theorem expand_of_object?_eq_none (h : node.object? = none) :
    expand components steps opened node = node := by
  cases node with
  | obj kvs => cases h
  | _ => cases steps <;> rfl

/-- Where the walk is cut the reference is left out. -/
theorem expand_of_isCut {v : Visit} (h : IsCut components v) :
    expand components v.left v.opened v.node = stripReference v.node := by
  cases h with
  | deep => rfl
  | circular href hopened => simp [expand, href, hopened]
  | unknown href hunknown => simp [expand, href, hunknown]

/-- A reference gives way to the expansion of its target. -/
theorem expand_of_target {text : String} {target : Json} (href : reference? node = some text)
    (hnew : componentName text ∉ opened)
    (htarget : components.lookup (componentName text) = some target) :
    expand components (steps + 1) opened node =
      expand components steps (componentName text :: opened) target := by
  simp [expand, href, hnew, htarget]

theorem expand_obj {kvs : Json.Object} (href : reference? (.obj kvs) = none) :
    expand components (steps + 1) opened (.obj kvs) =
      .obj (kvs.map fun (k, v) => (k, mapEntry (expand components steps opened) k v)) := by
  simp [expand, href]

/-- Inlining a node that is no reference inlines the schemas at its positions. -/
theorem schema?_expand (href : reference? node = none) (p : Position) :
    p.schema? (expand components (steps + 1) opened node) =
      (p.schema? node).map (expand components steps opened) := by
  cases node with
  | obj kvs =>
      rw [expand_obj href]
      exact schema?_mapEntries (fun v hv => expand_of_object?_eq_none hv) p
  | _ =>
      rw [expand_of_object?_eq_none rfl, schema?_of_object?_eq_none rfl, Option.map_none]

/-- A schema without a reference gets none at its own place. -/
theorem reference?_expand (href : reference? node = none) :
    reference? (expand components (steps + 1) opened node) = none := by
  cases node with
  | obj kvs =>
      rw [expand_obj href, reference?, get?_mapEntries, funext (mapEntry_reference _),
        Option.map_id']
      exact href
  | _ =>
      rw [expand_of_object?_eq_none rfl]
      exact href

section CutSteps

theorem hasReferenceAt_expand_iff_of_none (href : reference? node = none) :
    HasReferenceAt (expand components (steps + 1) opened node) path ↔
      ∃ p rest u, path = p :: rest ∧ p.schema? node = some u ∧
        HasReferenceAt (expand components steps opened u) rest := by
  constructor
  · intro h
    cases path with
    | nil => exact absurd h (not_hasReferenceAt_nil (reference?_expand href))
    | cons p rest =>
        obtain ⟨w, hw, h⟩ := hasReferenceAt_cons_iff.mp h
        rw [schema?_expand href] at hw
        obtain ⟨u, hu, rfl⟩ := Option.map_eq_some_iff.mp hw
        exact ⟨p, rest, u, rfl, hu, h⟩
  · rintro ⟨p, rest, u, rfl, hu, h⟩
    rw [hasReferenceAt_cons_iff, schema?_expand href, hu]
    exact ⟨_, rfl, h⟩

theorem not_isCut_of_target {text : String} {target : Json} (href : reference? node = some text)
    (hnew : componentName text ∉ opened)
    (htarget : components.lookup (componentName text) = some target) :
    ¬ IsCut components ⟨steps + 1, opened, node⟩ := by
  intro hcut
  cases hcut with
  | circular href' hopened =>
      obtain rfl := Option.some.inj (href.symm.trans href')
      exact hnew hopened
  | unknown href' hunknown =>
      obtain rfl := Option.some.inj (href.symm.trans href')
      rw [htarget] at hunknown
      cases hunknown

/-- A schema without a reference is cut by the depth only. -/
theorem not_isCut_of_none (href : reference? node = none) :
    ¬ IsCut components ⟨steps + 1, opened, node⟩ := by
  intro hcut
  cases hcut with
  | circular href' hopened => rw [href] at href'; cases href'
  | unknown href' hunknown => rw [href] at href'; cases href'

/-- The walk goes no further than a cut. -/
theorem Reaches.eq_of_isCut {v w : Visit} (hcut : IsCut components v)
    (h : Reaches components path v w) : path = [] ∧ w = v := by
  cases h with
  | here => exact ⟨rfl, rfl⟩
  | opening href hnew htarget h => exact absurd hcut (not_isCut_of_target href hnew htarget)
  | descending href hu h => exact absurd hcut (not_isCut_of_none href)

theorem cutAboveReference_iff_of_isCut {v : Visit} (hcut : IsCut components v) :
    CutAboveReference components v path ↔ path ≠ [] ∧ HasReferenceAt v.node path := by
  constructor
  · rintro ⟨front, p, back, w, rfl, hreach, -, h⟩
    obtain ⟨rfl, rfl⟩ := hreach.eq_of_isCut hcut
    exact ⟨List.cons_ne_nil p back, h⟩
  · rintro ⟨hne, h⟩
    obtain ⟨p, back, rfl⟩ := List.exists_cons_of_ne_nil hne
    exact ⟨[], p, back, v, rfl, .here, hcut, h⟩

/-- A reference passes on what is cut below its target. -/
theorem cutAboveReference_iff_of_target {text : String} {target : Json}
    (href : reference? node = some text) (hnew : componentName text ∉ opened)
    (htarget : components.lookup (componentName text) = some target) :
    CutAboveReference components ⟨steps + 1, opened, node⟩ path ↔
      CutAboveReference components ⟨steps, componentName text :: opened, target⟩ path := by
  constructor
  · rintro ⟨front, p, back, w, rfl, hreach, hcut, h⟩
    cases hreach with
    | here => exact absurd hcut (not_isCut_of_target href hnew htarget)
    | opening href' hnew' htarget' hreach =>
        obtain rfl := Option.some.inj (href.symm.trans href')
        obtain rfl := Option.some.inj (htarget.symm.trans htarget')
        exact ⟨front, p, back, w, rfl, hreach, hcut, h⟩
    | descending href' hu hreach => rw [href] at href'; cases href'
  · rintro ⟨front, p, back, w, rfl, hreach, hcut, h⟩
    exact ⟨front, p, back, w, rfl, .opening href hnew htarget hreach, hcut, h⟩

theorem cutAboveReference_iff_of_none (href : reference? node = none) :
    CutAboveReference components ⟨steps + 1, opened, node⟩ path ↔
      ∃ p rest u, path = p :: rest ∧ p.schema? node = some u ∧
        CutAboveReference components ⟨steps, opened, u⟩ rest := by
  constructor
  · rintro ⟨front, p, back, w, rfl, hreach, hcut, h⟩
    cases hreach with
    | here => exact absurd hcut (not_isCut_of_none href)
    | opening href' hnew htarget hreach => rw [href] at href'; cases href'
    | descending href' hu hreach =>
        exact ⟨_, _, _, rfl, hu, _, p, back, w, rfl, hreach, hcut, h⟩
  · rintro ⟨q, rest, u, rfl, hu, front, p, back, w, rfl, hreach, hcut, h⟩
    exact ⟨q :: front, p, back, w, rfl, .descending href hu hreach, hcut, h⟩

/-- At a cut just the references below the schema are left. -/
theorem hasReferenceAt_expand_iff_of_isCut (node : Json.Distinct)
    (hcut : IsCut components ⟨steps, opened, node.value⟩) :
    HasReferenceAt (expand components steps opened node.value) path ↔
      CutAboveReference components ⟨steps, opened, node.value⟩ path := by
  rw [expand_of_isCut hcut, hasReferenceAt_stripReference_iff, cutAboveReference_iff_of_isCut hcut]

end CutSteps

end Walk

/-- A reference in what a visit inlines comes from below a cut, and each one below a cut stays. -/
theorem hasReferenceAt_expand_iff (components : Json.DistinctObject) {steps : Nat}
    {opened : List String} (node : Json.Distinct) {path : List Position} :
    HasReferenceAt (expand components.entries steps opened node.value) path ↔
      CutAboveReference components.entries ⟨steps, opened, node.value⟩ path := by
  -- A reference leads to another node with one more component open, so both vary with the steps.
  induction steps generalizing opened node path with
  | zero => exact hasReferenceAt_expand_iff_of_isCut node .deep
  | succ steps ih =>
      cases href : reference? node.value with
      | none =>
          rw [hasReferenceAt_expand_iff_of_none href, cutAboveReference_iff_of_none href]
          constructor
          · rintro ⟨p, rest, u, rfl, hu, h⟩
            obtain ⟨u, rfl⟩ := exists_of_schema? node hu
            exact ⟨p, rest, u.value, rfl, hu, (ih u).mp h⟩
          · rintro ⟨p, rest, u, rfl, hu, h⟩
            obtain ⟨u, rfl⟩ := exists_of_schema? node hu
            exact ⟨p, rest, u.value, rfl, hu, (ih u).mpr h⟩
      | some text =>
          by_cases hopened : componentName text ∈ opened
          · exact hasReferenceAt_expand_iff_of_isCut node (.circular href hopened)
          · cases htarget : components.entries.lookup (componentName text) with
            | none => exact hasReferenceAt_expand_iff_of_isCut node (.unknown href htarget)
            | some target =>
                obtain ⟨target, rfl⟩ := components.exists_of_lookup htarget
                rw [expand_of_target href hopened htarget,
                  cutAboveReference_iff_of_target href hopened htarget]
                exact ih target

/-- The result of inlining has a reference at a position if and only if the walk is cut above a
reference that stands there. -/
theorem hasReferenceAt_dereference_iff (components : Json.DistinctObject) (schema : Json.Distinct)
    (path : List Position) :
    HasReferenceAt (dereference components.entries schema.value) path ↔
      ∃ front p back v, path = front ++ p :: back ∧
        Reaches components.entries front ⟨maxSteps + 1, [], schema.value⟩ v ∧
        IsCut components.entries v ∧ HasReferenceAt v.node (p :: back) :=
  hasReferenceAt_expand_iff components schema

/-- A reference to an unknown component, with a reference to a known one for its items. -/
def danglingItems : Json.Distinct where
  value := .obj
    [("$ref", .str "#/components/schemas/Missing"),
      ("items", .obj [("$ref", .str "#/components/schemas/Meta")])]
  keysApart := by simp [Json.KeysApart, Json.KeysApart.ofEntries, Json.Object.keys]

def metaOnly : Json.DistinctObject where
  entries := [("Meta", .obj [("type", .str "object")])]
  keysApart := by simp [Json.KeysApart, Json.KeysApart.ofEntries, Json.Object.keys]

/-- The reference of the items stays, though its component is there. -/
theorem hasReferenceAt_danglingItems :
    dereference metaOnly.entries danglingItems.value =
        .obj [("items", .obj [("$ref", .str "#/components/schemas/Meta")])] ∧
      HasReferenceAt (dereference metaOnly.entries danglingItems.value) [.items] := by
  have hunknown :
      metaOnly.entries.lookup (componentName "#/components/schemas/Missing") = none := by
    decide +kernel
  have hcut : IsCut metaOnly.entries ⟨maxSteps + 1, [], danglingItems.value⟩ :=
    .unknown rfl hunknown
  refine ⟨expand_of_isCut hcut, ?_⟩
  apply (hasReferenceAt_dereference_iff metaOnly danglingItems [.items]).mpr
  exact ⟨[], .items, [], _, rfl, .here, hcut, _, _, rfl, rfl⟩

end ManifestForm.Schema
