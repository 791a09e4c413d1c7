import ManifestForm.Json.Basic

/-! # Inlining references

Every reference to a component at a schema position is replaced by that component, itself
dereferenced. A reference into its own expansion, to an unknown component, or beyond 64 steps below
the root is left out, and its node keeps the other entries.
-/

namespace ManifestForm.Schema

/-- What stands before the name of a component in a reference. -/
def componentMark : String := "#/components/schemas/"

/-- The component that a reference names. -/
def componentName (text : String) : String :=
  let mark := componentMark.toList
  let cs := text.toList
  if mark.isPrefixOf cs then String.ofList (cs.drop mark.length) else text

/-- The text of a reference in an object. -/
def reference? (v : Json) : Option String := (v.get? "$ref").bind Json.string?

/-- An object without its reference. -/
def stripReference : Json → Json
  | .obj kvs => .obj (Json.Object.swapErase "$ref" kvs)
  | v => v

def isComposition (key : String) : Bool := key = "allOf" || key = "anyOf" || key = "oneOf"

def isSubschema (key : String) : Bool :=
  key = "items" || key = "not" || key = "additionalProperties"

/-- Applies a function to the schemas in an entry of a schema. -/
def mapEntry (f : Json → Json) (key : String) (v : Json) : Json :=
  match v with
  | .arr members => if isComposition key then .arr (members.map f) else v
  | .obj properties =>
    if key = "properties" then .obj (properties.map fun (name, p) => (name, f p))
    else if isSubschema key then f v
    else v
  | v => v

/-- Expands a schema with so many steps left. `opened` names the components being expanded. -/
def expand (components : Json.Object) : Nat → List String → Json → Json
  | 0, _, v => stripReference v
  | steps + 1, opened, v =>
    match reference? v with
    | some text =>
      let name := componentName text
      if opened.contains name then stripReference v
      else
        match components.lookup name with
        | none => stripReference v
        | some target => expand components steps (name :: opened) target
    | none =>
      match v with
      | .obj kvs => .obj (kvs.map fun (k, w) => (k, mapEntry (expand components steps opened) k w))
      | v => v

/-- Steps below the root of a schema. -/
def maxSteps : Nat := 64

def dereference (components : Json.Object) (schema : Json) : Json :=
  expand components (maxSteps + 1) [] schema

end ManifestForm.Schema
