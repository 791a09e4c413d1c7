import ManifestForm.Proofs.Json.Decode
import ManifestForm.Proofs.Schema.Parts
import ManifestForm.Schema.Codec

/-!
# Schemas there and back

An encoded schema is decoded to itself. The two variants of a schema are told apart by one entry: an
object whose `$ref` is a text is a reference, and any other one that is decoded is an inline
schema. An inline schema is encoded without that entry, and the names of its properties stand in an
object of their own.
-/

namespace ManifestForm.Schema

section Encoding

def encodeProperties (ps : List (String × Schema)) : Json :=
  .obj (ps.map fun (k, s) => (k, toJson s))

def encodeMembers (members : List Schema) : Json := .arr (members.map toJson)

/-- What may stand beside the properties: a flag, or the schema of the values. -/
def encodeAdditional : Additional Schema → Json
  | .allowed flag => .bool flag
  | .values s => toJson s

/-- The entries of an encoded inline schema. -/
def encodedEntries (o : SchemaObject Schema) : Json.Object :=
  Json.entry "type" (o.type.map .str) ++ Json.entry "format" (o.format.map .str) ++
    Json.entry "description" (o.description.map .str) ++
    Json.entry "properties" (o.properties.map encodeProperties) ++
    Json.entry "items" (o.items.map toJson) ++ Json.entry "allOf" (o.allOf.map encodeMembers) ++
    Json.entry "additionalProperties" (o.additional.map encodeAdditional)

theorem entriesJson_eq (ps : List (String × Schema)) :
    toJson.entriesJson ps = ps.map fun (k, s) => (k, toJson s) := by
  induction ps with
  | nil => rfl
  | cons p ps ih => rw [toJson.entriesJson, ih, List.map_cons]

theorem listJson_eq (members : List Schema) : toJson.listJson members = members.map toJson := by
  induction members with
  | nil => rfl
  | cons s members ih => rw [toJson.listJson, ih, List.map_cons]

theorem toJson_inline (o : SchemaObject Schema) :
    toJson (.inline o) = .obj (encodedEntries o) := by
  obtain ⟨type, format, description, properties, items, allOf, additional⟩ := o
  have hproperties : toJson.propertiesJson properties = properties.map encodeProperties := by
    cases properties with
    | none => rfl
    | some ps => rw [toJson.propertiesJson, entriesJson_eq, Option.map_some, encodeProperties]
  have hitems : toJson.itemsJson items = items.map toJson := by
    cases items <;> rfl
  have hmembers : toJson.membersJson allOf = allOf.map encodeMembers := by
    cases allOf with
    | none => rfl
    | some members => rw [toJson.membersJson, listJson_eq, Option.map_some, encodeMembers]
  have hadditional : toJson.additionalJson additional = additional.map encodeAdditional := by
    cases additional with
    | none => rfl
    | some a => cases a <;> rfl
  rw [toJson, hproperties, hitems, hmembers, hadditional, encodedEntries]

theorem toJson_ne_null (s : Schema) : toJson s ≠ .null := by
  cases s with
  | reference target => rw [toJson]; exact Json.noConfusion
  | inline o => rw [toJson_inline]; exact Json.noConfusion

theorem encodeAdditional_ne_null (a : Additional Schema) : encodeAdditional a ≠ .null := by
  cases a with
  | allowed flag => exact Json.noConfusion
  | values s => exact toJson_ne_null s

/-- The value under a name in an encoded inline schema. -/
def encodedValue? (o : SchemaObject Schema) (name : String) : Option Json :=
  if name = "type" then o.type.map .str
  else if name = "format" then o.format.map .str
  else if name = "description" then o.description.map .str
  else if name = "properties" then o.properties.map encodeProperties
  else if name = "items" then o.items.map toJson
  else if name = "allOf" then o.allOf.map encodeMembers
  else if name = "additionalProperties" then o.additional.map encodeAdditional
  else none

/-- Each member of a schema is encoded under its own name. -/
theorem lookup_encodedEntries (o : SchemaObject Schema) (name : String) :
    (encodedEntries o).lookup name = encodedValue? o name := by
  simp only [encodedEntries, List.lookup_append, Json.lookup_entry, encodedValue?]
  split_ifs <;> simp_all

/-- A part of a schema nests less deep than the schema. -/
theorem height_lt_of_encodedValue? {o : SchemaObject Schema} {name : String} {v : Json}
    (h : encodedValue? o name = some v) : v.height < (toJson (.inline o)).height := by
  rw [toJson_inline]
  exact Json.height_lt_of_lookup ((lookup_encodedEntries o name).trans h)

/-- A part is encoded at a lower height. -/
theorem HasPart.height_lt {s part : Schema} (h : HasPart s part) :
    part.toJson.height < s.toJson.height := by
  cases h with
  | @property o ps field part hp hmem =>
      have hvalue : encodedValue? o "properties" = some (encodeProperties ps) :=
        congrArg (Option.map encodeProperties) hp
      have hentry : (field, part.toJson) ∈ ps.map fun (k, s) => (k, toJson s) :=
        List.mem_map_of_mem hmem
      exact Nat.lt_trans (Json.height_lt_of_mem_entries hentry) (height_lt_of_encodedValue? hvalue)
  | @items o part hi =>
      have hvalue : encodedValue? o "items" = some part.toJson :=
        congrArg (Option.map toJson) hi
      exact height_lt_of_encodedValue? hvalue
  | @member o members part hm hmem =>
      have hvalue : encodedValue? o "allOf" = some (encodeMembers members) :=
        congrArg (Option.map encodeMembers) hm
      have hitem : part.toJson ∈ members.map toJson := List.mem_map_of_mem hmem
      exact Nat.lt_trans (Json.height_lt_of_mem_items hitem) (height_lt_of_encodedValue? hvalue)
  | @values o part ha =>
      have hvalue : encodedValue? o "additionalProperties" = some part.toJson :=
        congrArg (Option.map encodeAdditional) ha
      exact height_lt_of_encodedValue? hvalue

end Encoding

section Decoding

theorem referenceFields_eq_ok_iff {kvs : Json.Object} {target : String} :
    referenceFields.decoder "ReferenceObject" (.obj kvs) = .ok target ↔
      kvs.lookup "$ref" = some (.str target) := by
  rw [referenceFields, Record.decoder_required_eq_ok_iff]
  simp only [Decoder.string_eq_ok_iff, exists_eq_right]

/-- An object is decoded to a reference exactly if its `$ref` is a text. -/
theorem decodeWithin_eq_reference_iff {levels : Nat} {kvs : Json.Object} {target : String} :
    decodeWithin (levels + 1) (.obj kvs) = .ok (.reference target) ↔
      kvs.lookup "$ref" = some (.str target) := by
  rw [decodeWithin, Decoder.oneOf_pair_eq_ok_iff, ← referenceFields_eq_ok_iff]
  cases referenceFields.decoder "ReferenceObject" (.obj kvs) with
  | ok text => simp [Except.map]
  | error e =>
      cases (SchemaObject.fields (decodeWithin levels)).decoder "SchemaObject" (.obj kvs) <;>
        simp [Except.map]

/-- Without a text as its `$ref` an object is an inline schema if its keywords are decoded. -/
theorem decodeWithin_of_gives {levels : Nat} {kvs : Json.Object} {o : SchemaObject Schema}
    (href : kvs.lookup "$ref" = none)
    (hfields : Record.Gives (SchemaObject.fields (decodeWithin levels)) kvs o) :
    decodeWithin (levels + 1) (.obj kvs) = .ok (.inline o) := by
  rw [decodeWithin, Decoder.oneOf_pair_eq_ok_iff, hfields.decoder]
  refine .inr ⟨?_, rfl⟩
  cases hreference : referenceFields.decoder "ReferenceObject" (.obj kvs) with
  | ok target =>
      rw [referenceFields_eq_ok_iff, href] at hreference
      cases hreference
  | error e => exact ⟨e, rfl⟩

/-- A flag is not taken for a schema, nor a schema for a flag. -/
theorem decoder_encodeAdditional {decoder : Decoder Schema} {a : Additional Schema}
    (h : ∀ s, a = .values s → decoder s.toJson = .ok s) :
    Additional.decoder decoder (encodeAdditional a) = .ok a := by
  rw [Additional.decoder, Decoder.oneOf_pair_eq_ok_iff]
  cases a with
  | allowed flag => exact .inl rfl
  | values s =>
      refine .inr ⟨?_, congrArg (Except.map Additional.values) (h s rfl)⟩
      cases s with
      | reference target => exact ⟨_, rfl⟩
      | inline o => rw [encodeAdditional, toJson_inline]; exact ⟨_, rfl⟩

/-- The keywords of an inline schema are decoded if its parts are. -/
theorem gives_encodedEntries {decoder : Decoder Schema} {o : SchemaObject Schema}
    (h : ∀ part, HasPart (.inline o) part → decoder part.toJson = .ok part) :
    Record.Gives (SchemaObject.fields decoder) (encodedEntries o) o := by
  have htext {name : String} {text? : Option String}
      (hvalue : encodedValue? o name = text?.map .str) :
      Record.Gives (Record.optional name Decoder.string) (encodedEntries o) text? :=
    Record.gives_optional ((lookup_encodedEntries o name).trans hvalue)
      fun text _ => ⟨Json.noConfusion, rfl⟩
  have hproperties : Record.Gives (Record.optional "properties" (Decoder.dictionary decoder))
      (encodedEntries o) o.properties := by
    refine Record.gives_optional (lookup_encodedEntries o "properties") fun ps hps => ?_
    exact ⟨Json.noConfusion, Decoder.dictionary_of_forall fun p hp => h p.2 (.property hps hp)⟩
  have hitems : Record.Gives (Record.optional "items" decoder) (encodedEntries o) o.items := by
    refine Record.gives_optional (lookup_encodedEntries o "items") fun item hitem => ?_
    exact ⟨toJson_ne_null item, h item (.items hitem)⟩
  have hmembers : Record.Gives (Record.optional "allOf" (Decoder.list decoder))
      (encodedEntries o) o.allOf := by
    refine Record.gives_optional (lookup_encodedEntries o "allOf") fun members hmembers => ?_
    exact ⟨Json.noConfusion, Decoder.list_of_forall fun s hs => h s (.member hmembers hs)⟩
  have hadditional : Record.Gives
      (Record.optional "additionalProperties" (Additional.decoder decoder)) (encodedEntries o)
      o.additional := by
    refine Record.gives_optional (lookup_encodedEntries o "additionalProperties") fun a ha => ?_
    refine ⟨encodeAdditional_ne_null a, decoder_encodeAdditional ?_⟩
    rintro s rfl
    exact h s (.values ha)
  exact (((((((htext rfl).map SchemaObject.mk).seq (htext rfl)).seq (htext rfl)).seq
    hproperties).seq hitems).seq hmembers).seq hadditional

/-- The number of levels does not count as long as it is more than the height. -/
theorem decodeWithin_toJson (s : Schema) {levels : Nat} (h : s.toJson.height < levels) :
    decodeWithin levels s.toJson = .ok s := by
  induction s using inductionOn generalizing levels with
  | step s ih =>
      obtain ⟨below, rfl⟩ : ∃ below, levels = below + 1 := ⟨levels - 1, by omega⟩
      cases s with
      | reference target => exact decodeWithin_eq_reference_iff.mpr rfl
      | inline o =>
          have hparts : ∀ part, HasPart (.inline o) part →
              decodeWithin below part.toJson = .ok part := by
            intro part hpart
            have hheight := hpart.height_lt
            exact ih part hpart (by omega)
          rw [toJson_inline]
          exact decodeWithin_of_gives (lookup_encodedEntries o "$ref") (gives_encodedEntries hparts)

/-- An encoded schema is decoded to itself. An object is decoded to a reference if and only if its
`$ref` is a text, whatever else it holds. -/
theorem decode_reads_back :
    (∀ s : Schema, decode s.toJson = .ok s) ∧
      ∀ kvs target, decode (.obj kvs) = .ok (.reference target) ↔
        kvs.lookup "$ref" = some (.str target) :=
  ⟨fun s => decodeWithin_toJson s (Nat.lt_succ_self _), fun _ _ => decodeWithin_eq_reference_iff⟩

end Decoding

end ManifestForm.Schema
