import ManifestForm.Json.Basic
import ManifestForm.Json.Decode

/-! # Discovery documents of a cluster

A resource has a group, a version and a kind. The index of a cluster lists where the API description
of each group version is served. A description is usable if it is of major version 3 and has
component schemas.
-/

namespace ManifestForm

structure GroupVersionKind where
  group : String
  version : String
  kind : String
  deriving DecidableEq, Repr

namespace GroupVersionKind

/-- What stands before the first slash, if there is one, and what stands behind it. -/
def splitAtSlash : List Char → Option (List Char × List Char)
  | [] => none
  | c :: cs =>
    if c = '/' then some ([], cs) else (splitAtSlash cs).map fun (a, b) => (c :: a, b)

/-- An API version is a group, a slash and a version; the core group has neither name nor slash. -/
def ofApiVersion (apiVersion kind : String) : GroupVersionKind :=
  match splitAtSlash apiVersion.toList with
  | some (group, version) => ⟨String.ofList group, String.ofList version, kind⟩
  | none => ⟨"", apiVersion, kind⟩

/-- An object with the three texts. -/
def ofJson? (v : Json) : Option GroupVersionKind := do
  let field (name : String) : Option String := (v.get? name).bind Json.string?
  return ⟨← field "group", ← field "version", ← field "kind"⟩

end GroupVersionKind

/-- The key of an API version in the index of a cluster. -/
def groupVersionPath (apiVersion : String) : String :=
  if apiVersion = "v1" then "api/v1" else "apis/" ++ apiVersion

/-- Group versions, as keys of the index, with the URLs of their descriptions on the server. -/
structure Index where
  paths : List (String × String)
  deriving DecidableEq, Repr

namespace Index

def entryFields : Record String := Record.required "serverRelativeURL" Decoder.string

def fields : Record Index :=
  Index.mk <$> Record.required "paths" (Decoder.dictionary (entryFields.decoder "IndexEntry"))

def decode : Decoder Index := fields.decoder "Index"

def toJson (index : Index) : Json :=
  .obj [("paths",
    .obj (index.paths.map fun (key, url) => (key, .obj [("serverRelativeURL", .str url)])))]

/-- The URL of the description of an API version. -/
def url? (apiVersion : String) (index : Index) : Option String :=
  index.paths.lookup (groupVersionPath apiVersion)

end Index

/-- An API description: the version of its format, and its schemas by name if it has components. -/
structure ApiDescription where
  version : String
  schemas : Option Json.Object

namespace ApiDescription

def schemaFields : Record Json.Object := Record.withDefault "schemas" [] Decoder.object

def fields : Record ApiDescription :=
  ApiDescription.mk
    <$> Record.required "openapi" Decoder.string
    <*> Record.optional "components" (schemaFields.decoder "Components")

def decode : Decoder ApiDescription := fields.decoder "OpenApiDocument"

/-- The schemas of a usable description. -/
def usable? (body : Json) : Option Json.Object :=
  match decode body with
  | .ok ⟨version, some schemas⟩ =>
    if "3.".toList.isPrefixOf version.toList && !schemas.isEmpty then some schemas else none
  | _ => none

/-- The kind that a schema describes: the first one it is tagged with. -/
def describedKind? (schema : Json) : Option GroupVersionKind := do
  let tags ← (← schema.get? "x-kubernetes-group-version-kind").array?
  GroupVersionKind.ofJson? (← tags.head?)

/-- The first schema that describes a kind. -/
def find? (wanted : GroupVersionKind) (schemas : Json.Object) : Option Json :=
  (schemas.find? fun (_, schema) => describedKind? schema = some wanted).map (·.2)

end ApiDescription

end ManifestForm
