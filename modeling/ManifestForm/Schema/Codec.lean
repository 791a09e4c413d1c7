import ManifestForm.Json.Decode

/-! # Schemas

A schema slot of an API description is a reference or an inline schema, of which only the keywords
used for forms are kept. A JSON value is a reference if it holds the text of one, whatever else it
holds, and else an inline schema, whose unknown keywords are ignored. Encoding writes the known
keywords in their order and leaves out what is absent.
-/

namespace ManifestForm

/-- A flag, or the schema of the values of a map. -/
inductive Additional (σ : Type) where
  | allowed (flag : Bool)
  | values (schema : σ)

/-- The keywords of an inline schema over its subschemas. -/
structure SchemaObject (σ : Type) where
  type : Option String
  format : Option String
  description : Option String
  properties : Option (List (String × σ))
  items : Option σ
  allOf : Option (List σ)
  additional : Option (Additional σ)

inductive Schema where
  | reference (target : String)
  | inline (object : SchemaObject Schema)

def SchemaObject.isType (name : String) (s : SchemaObject σ) : Bool := s.type == some name

namespace Schema

def isReference : Schema → Bool
  | .reference _ => true
  | .inline _ => false

end Schema

namespace Additional

/-- A flag, or else a schema. -/
def decoder (schema : Decoder σ) : Decoder (Additional σ) :=
  Decoder.oneOf "AdditionalProperties"
    [fun v => (Decoder.bool v).map .allowed, fun v => (schema v).map .values]

end Additional

namespace SchemaObject

/-- The keywords, with a decoder for subschemas. -/
def fields (schema : Decoder σ) : Record (SchemaObject σ) :=
  SchemaObject.mk
    <$> Record.optional "type" Decoder.string
    <*> Record.optional "format" Decoder.string
    <*> Record.optional "description" Decoder.string
    <*> Record.optional "properties" (Decoder.dictionary schema)
    <*> Record.optional "items" schema
    <*> Record.optional "allOf" (Decoder.list schema)
    <*> Record.optional "additionalProperties" (Additional.decoder schema)

end SchemaObject

namespace Schema

def referenceFields : Record String := Record.required "$ref" Decoder.string

/-- Decodes values that nest at most `levels - 1` deep. -/
def decodeWithin (levels : Nat) : Decoder Schema :=
  match levels with
  | 0 => fun _ => .error (.noVariant "SchemaOrRef")
  | levels + 1 =>
    Decoder.oneOf "SchemaOrRef"
      [fun v => (referenceFields.decoder "ReferenceObject" v).map .reference,
        fun v => ((SchemaObject.fields (decodeWithin levels)).decoder "SchemaObject" v).map .inline]

def decode : Decoder Schema := fun v => decodeWithin (v.height + 1) v

/-- An inline schema, also where the text of a reference stands beside its keywords. -/
def decodeObject : Decoder (SchemaObject Schema) := fun v =>
  (SchemaObject.fields (decodeWithin v.height)).decoder "SchemaObject" v

def toJson : Schema → Json
  | .reference target => .obj [("$ref", .str target)]
  | .inline ⟨type, format, description, properties, items, allOf, additional⟩ =>
    .obj (Json.entry "type" (type.map .str) ++ Json.entry "format" (format.map .str) ++
      Json.entry "description" (description.map .str) ++
      Json.entry "properties" (propertiesJson properties) ++
      Json.entry "items" (itemsJson items) ++ Json.entry "allOf" (membersJson allOf) ++
      Json.entry "additionalProperties" (additionalJson additional))
where
  propertiesJson : Option (List (String × Schema)) → Option Json
    | none => none
    | some ps => some (.obj (entriesJson ps))
  entriesJson : List (String × Schema) → List (String × Json)
    | [] => []
    | (k, s) :: ps => (k, toJson s) :: entriesJson ps
  itemsJson : Option Schema → Option Json
    | none => none
    | some s => some (toJson s)
  membersJson : Option (List Schema) → Option Json
    | none => none
    | some ss => some (.arr (listJson ss))
  listJson : List Schema → List Json
    | [] => []
    | s :: ss => toJson s :: listJson ss
  additionalJson : Option (Additional Schema) → Option Json
    | none => none
    | some (.allowed flag) => some (.bool flag)
    | some (.values s) => some (toJson s)

end Schema

end ManifestForm
