import ManifestForm.Schema.Codec
import ManifestForm.Spec.Project

/-! # Simplifying schemas

The properties of an object come first, then the one member of a composition, then the items of an
array. References and compositions of other than one member are refused wherever they are met.
-/

namespace ManifestForm.Schema

/-- The text of the type. An array shows the type of its items, seen through the first member of
a composition around it; an object shows the type of its values if they are declared. A reference
shows nothing. -/
def typeText : Schema → String
  | .reference _ => ""
  | .inline ⟨none, _, _, _, _, _, _⟩ => ""
  | .inline ⟨some type, _, _, _, items, _, additional⟩ =>
    if type = "array" then "[]" ++ elementText items
    else if type = "object" then
      match additional with
      | some (.values (.inline ⟨some t, format, d, ps, is, ms, a⟩)) =>
        "map[string]" ++
          (if format = some "byte" then "[]byte"
            else typeText (.inline ⟨some t, format, d, ps, is, ms, a⟩))
      | _ => type
    else type
where
  /-- The type of the items of an array. -/
  elementText : Option Schema → String
    | some (.inline ⟨_, _, _, _, _, some (.inline member :: _), _⟩) => typeText (.inline member)
    | some item => typeText item
    | none => ""

/-- The spec of a schema under a name. -/
def simplify (name : String) : Schema → Except SpecError Spec
  | .reference _ => .error (.unsupported name .unresolvedReference)
  | .inline ⟨type, format, description, properties, items, allOf, additional⟩ =>
    let text := typeText (.inline ⟨type, format, description, properties, items, allOf, additional⟩)
    let node : Spec := ⟨name, text, false, description.getD "", "", []⟩
    match
      SchemaObject.isType "object"
        ⟨type, format, description, properties, items, allOf, additional⟩,
      properties, allOf,
      SchemaObject.isType "array"
        ⟨type, format, description, properties, items, allOf, additional⟩,
      items
    with
    | true, some ps, _, _, _ =>
      (simplifyEach ps).map fun children => { node with children }
    | _, _, some [member], _, _ =>
      (simplify "" member).map fun inner =>
        { node with typeDescription := inner.description, children := inner.children }
    | _, _, some members, _, _ => .error (.unsupported name (.composition members.length))
    | _, _, none, true, some item =>
      (simplify "" item).map fun inner =>
        { node with
          isArray := true
          typeDescription := inner.typeDescription
          children := inner.children }
    | _, _, none, true, none => .ok { node with isArray := true }
    | _, _, none, false, _ => .ok node
where
  /-- The specs of properties, each under its own name. -/
  simplifyEach : List (String × Schema) → Except SpecError (List Spec)
    | [] => .ok []
    | (property, s) :: ps =>
      match simplify property s with
      | .error e => .error e
      | .ok first => (simplifyEach ps).map (first :: ·)

end ManifestForm.Schema
