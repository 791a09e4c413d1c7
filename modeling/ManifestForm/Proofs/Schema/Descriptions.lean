import ManifestForm.Proofs.Json.Object
import ManifestForm.Schema.Cache
import Mathlib.Data.List.Basic

/-!
# Kinds in a description

A description is searched from its first schema to its last one for a schema
that is tagged with a kind. Only the first tag of a schema counts, and it has
to name the group and the version that the API version is split into.
-/

namespace ManifestForm

namespace GroupVersionKind

section Splitting

/-- The group and the version of an API version. The first slash stands between them, and without
one the group is the core group. -/
inductive SplitsInto : String → String → String → Prop
  | slash {group : String} (version : String) (hnoSlash : '/' ∉ group.toList) :
      SplitsInto (group ++ "/" ++ version) group version
  | core {version : String} (hnoSlash : '/' ∉ version.toList) : SplitsInto version "" version

/-- The first slash stands behind a group without one. -/
theorem splitAtSlash_append {group : List Char} (hnoSlash : '/' ∉ group) (version : List Char) :
    splitAtSlash (group ++ '/' :: version) = some (group, version) := by
  induction group with
  | nil => rfl
  | cons c group ih =>
      rw [List.mem_cons, not_or] at hnoSlash
      obtain ⟨hfirst, hothers⟩ := hnoSlash
      rw [List.cons_append, splitAtSlash, if_neg (Ne.symm hfirst), ih hothers]
      rfl

theorem splitAtSlash_eq_none {cs : List Char} (hnoSlash : '/' ∉ cs) : splitAtSlash cs = none := by
  induction cs with
  | nil => rfl
  | cons c cs ih =>
      rw [List.mem_cons, not_or] at hnoSlash
      obtain ⟨hfirst, hothers⟩ := hnoSlash
      rw [splitAtSlash, if_neg (Ne.symm hfirst), ih hothers]
      rfl

theorem SplitsInto.ofApiVersion_eq {apiVersion group version : String}
    (hsplit : SplitsInto apiVersion group version) (kind : String) :
    ofApiVersion apiVersion kind = ⟨group, version, kind⟩ := by
  cases hsplit with
  | slash version hnoSlash =>
      have hcut := splitAtSlash_append hnoSlash version.toList
      simp [ofApiVersion, hcut]
  | core hnoSlash => simp [ofApiVersion, splitAtSlash_eq_none hnoSlash]

/-- Every API version splits in one of the two ways. -/
theorem exists_splitsInto (apiVersion : String) :
    ∃ group version, SplitsInto apiVersion group version := by
  by_cases hslash : '/' ∈ apiVersion.toList
  · obtain ⟨group, version, hparts, hnoSlash⟩ := List.eq_append_cons_of_mem hslash
    have hwhole : apiVersion = String.ofList group ++ "/" ++ String.ofList version := by
      rw [← String.toList_inj]
      simpa using hparts
    rw [hwhole]
    exact ⟨_, _, .slash _ (by simpa using hnoSlash)⟩
  · exact ⟨"", apiVersion, .core hslash⟩

end Splitting

section Tags

/-- A tag with the texts of a group, a version and a kind. -/
structure Names (tag : Json) (gvk : GroupVersionKind) : Prop where
  group : tag.get? "group" = some (.str gvk.group)
  version : tag.get? "version" = some (.str gvk.version)
  kind : tag.get? "kind" = some (.str gvk.kind)

/-- A tag is read exactly if its three members are texts. -/
theorem ofJson?_eq_some_iff {tag : Json} {gvk : GroupVersionKind} :
    ofJson? tag = some gvk ↔ Names tag gvk := by
  have hread : ofJson? tag = some gvk ↔ ∃ group, tag.get? "group" = some (.str group) ∧
      ∃ version, tag.get? "version" = some (.str version) ∧
        ∃ kind, tag.get? "kind" = some (.str kind) ∧ ⟨group, version, kind⟩ = gvk := by
    simp [ofJson?, Option.bind_eq_some_iff, Json.string?_eq_some_iff]
  rw [hread]
  constructor
  · rintro ⟨group, hgroup, version, hversion, kind, hkind, rfl⟩
    exact ⟨hgroup, hversion, hkind⟩
  · rintro ⟨hgroup, hversion, hkind⟩
    exact ⟨_, hgroup, _, hversion, _, hkind, rfl⟩

end Tags

end GroupVersionKind

namespace ApiDescription

open GroupVersionKind

/-- A schema whose first tag names the group and the version of an API version, and a kind. -/
def IsTagged (apiVersion kind : String) (schema : Json) : Prop :=
  ∃ group version first others, SplitsInto apiVersion group version ∧
    schema.get? "x-kubernetes-group-version-kind" = some (.arr (first :: others)) ∧
    Names first ⟨group, version, kind⟩

theorem array?_eq_some_iff {v : Json} {items : List Json} :
    v.array? = some items ↔ v = .arr items := by
  cases v <;> simp [Json.array?]

/-- The kind of a schema is that of the first tag in its list. -/
theorem describedKind?_eq_some_iff {schema : Json} {gvk : GroupVersionKind} :
    describedKind? schema = some gvk ↔ ∃ first others,
      schema.get? "x-kubernetes-group-version-kind" = some (.arr (first :: others)) ∧
        Names first gvk := by
  have hread : describedKind? schema = some gvk ↔ ∃ items,
      schema.get? "x-kubernetes-group-version-kind" = some (.arr items) ∧
        ∃ first, items.head? = some first ∧ ofJson? first = some gvk := by
    simp [describedKind?, Option.bind_eq_some_iff, array?_eq_some_iff]
  rw [hread]
  constructor
  · rintro ⟨items, htags, first, hhead, hnames⟩
    obtain ⟨others, rfl⟩ := List.head?_eq_some_iff.mp hhead
    exact ⟨first, others, htags, ofJson?_eq_some_iff.mp hnames⟩
  · rintro ⟨first, others, htags, hnames⟩
    exact ⟨_, htags, first, rfl, ofJson?_eq_some_iff.mpr hnames⟩

theorem isTagged_iff {apiVersion kind : String} {schema : Json} :
    IsTagged apiVersion kind schema ↔
      describedKind? schema = some (.ofApiVersion apiVersion kind) := by
  rw [describedKind?_eq_some_iff]
  constructor
  · rintro ⟨group, version, first, others, hsplit, htags, hnames⟩
    rw [hsplit.ofApiVersion_eq kind]
    exact ⟨first, others, htags, hnames⟩
  · rintro ⟨first, others, htags, hnames⟩
    obtain ⟨group, version, hsplit⟩ := exists_splitsInto apiVersion
    rw [hsplit.ofApiVersion_eq kind] at hnames
    exact ⟨group, version, first, others, hsplit, htags, hnames⟩

/-- The first one of some schemas that is tagged with a kind. -/
def IsFirstTagged (apiVersion kind : String) (schemas : Json.Object) (schema : Json) : Prop :=
  ∃ before name after, schemas = before ++ (name, schema) :: after ∧
    IsTagged apiVersion kind schema ∧ ∀ entry ∈ before, ¬ IsTagged apiVersion kind entry.2

/-- A description is searched for the first schema with the tag. -/
theorem find?_eq_some_iff {apiVersion kind : String} {schemas : Json.Object} {schema : Json} :
    find? (.ofApiVersion apiVersion kind) schemas = some schema ↔
      IsFirstTagged apiVersion kind schemas schema := by
  simp only [find?, Option.map_eq_some_iff, List.find?_eq_some_iff_append, decide_eq_true_iff,
    Bool.not_eq_true', decide_eq_false_iff_not, ← isTagged_iff]
  constructor
  · rintro ⟨⟨name, _⟩, ⟨htagged, before, after, hparts, hothers⟩, rfl⟩
    exact ⟨before, name, after, hparts, htagged, hothers⟩
  · rintro ⟨before, name, after, hparts, htagged, hothers⟩
    exact ⟨(name, schema), ⟨htagged, before, after, hparts, hothers⟩, rfl⟩

theorem find?_eq_none_iff {apiVersion kind : String} {schemas : Json.Object} :
    find? (.ofApiVersion apiVersion kind) schemas = none ↔
      ∀ entry ∈ schemas, ¬ IsTagged apiVersion kind entry.2 := by
  simp [find?, isTagged_iff]

/-- A description of the third version of its format, which has schemas. -/
def IsUsable (body : Json) (schemas : Json.Object) : Prop :=
  ∃ minor, decode body = .ok ⟨"3." ++ minor, some schemas⟩ ∧ schemas ≠ []

theorem isPrefixOf_toList_iff {first text : String} :
    first.toList.isPrefixOf text.toList ↔ ∃ rest, text = first ++ rest := by
  rw [List.isPrefixOf_iff_prefix]
  constructor
  · rintro ⟨rest, hparts⟩
    refine ⟨String.ofList rest, ?_⟩
    rw [← String.toList_inj, ← hparts]
    simp
  · rintro ⟨rest, rfl⟩
    simp

/-- A description is usable exactly if it is of the third version and has schemas. -/
theorem usable?_eq_some_iff {body : Json} {schemas : Json.Object} :
    usable? body = some schemas ↔ IsUsable body schemas := by
  have hread : usable? body = some schemas ↔ ∃ version, decode body = .ok ⟨version, some schemas⟩ ∧
      "3.".toList.isPrefixOf version.toList ∧ schemas ≠ [] := by
    unfold usable?
    rcases decode body with fault | ⟨version, _ | found⟩
    · simp
    · simp
    · simp only [Option.ite_none_right_eq_some, Bool.and_eq_true, Option.some.injEq,
        Except.ok.injEq, ApiDescription.mk.injEq]
      constructor
      · rintro ⟨⟨hthird, hsomeSchema⟩, rfl⟩
        exact ⟨version, ⟨rfl, rfl⟩, hthird, by simpa using hsomeSchema⟩
      · rintro ⟨_, ⟨rfl, rfl⟩, hthird, hsomeSchema⟩
        exact ⟨⟨hthird, by simpa using hsomeSchema⟩, rfl⟩
  rw [hread]
  constructor
  · rintro ⟨version, hdecoded, hthird, hsomeSchema⟩
    obtain ⟨minor, rfl⟩ := isPrefixOf_toList_iff.mp hthird
    exact ⟨minor, hdecoded, hsomeSchema⟩
  · rintro ⟨minor, hdecoded, hsomeSchema⟩
    exact ⟨_, hdecoded, isPrefixOf_toList_iff.mpr ⟨minor, rfl⟩, hsomeSchema⟩

/-- What the first schema of a usable description that is tagged with a kind decodes to, once its
references are inlined. -/
def Describes (apiVersion kind : String) (body : Json) (result : Except DecodeError Schema) :
    Prop :=
  ∃ schemas schema, IsUsable body schemas ∧ IsFirstTagged apiVersion kind schemas schema ∧
    Schema.decode (Schema.dereference schemas schema) = result

/-- No schema of a usable description is tagged with a kind. -/
def LacksKind (apiVersion kind : String) (body : Json) : Prop :=
  ∃ schemas, IsUsable body schemas ∧ ∀ entry ∈ schemas, ¬ IsTagged apiVersion kind entry.2

end ApiDescription

section Describing

namespace SchemaCache

open ApiDescription

/-- How the search for the schema of a kind in a description ends. -/
inductive DescribeStep (apiVersion kind : String) (body : Json) : Except SchemaError Schema → Prop
  | unusable (huseless : ∀ schemas, ¬ IsUsable body schemas) :
      DescribeStep apiVersion kind body (.error .noUsableApiDescription)
  | untagged (hlacks : LacksKind apiVersion kind body) :
      DescribeStep apiVersion kind body (.error (.resourceNotFound apiVersion kind))
  | malformed {fault : DecodeError} (hdescribes : Describes apiVersion kind body (.error fault)) :
      DescribeStep apiVersion kind body (.error .noUsableApiDescription)
  | decoded {s : Schema} (hdescribes : Describes apiVersion kind body (.ok s)) :
      DescribeStep apiVersion kind body (.ok s)

variable {apiVersion kind : String} {body : Json} {r : Except SchemaError Schema}

/-- A description is answered from in one of these ways. -/
theorem describe_step (apiVersion kind : String) (body : Json) :
    DescribeStep apiVersion kind body (describe apiVersion kind body) := by
  unfold describe
  cases husable : usable? body with
  | none =>
      refine .unusable fun schemas hhere => ?_
      cases husable.symm.trans (usable?_eq_some_iff.mpr hhere)
  | some schemas =>
      have husable := usable?_eq_some_iff.mp husable
      cases hknown : find? (.ofApiVersion apiVersion kind) schemas with
      | none =>
          simp only [hknown]
          exact .untagged ⟨schemas, husable, find?_eq_none_iff.mp hknown⟩
      | some schema =>
          have hfirst := find?_eq_some_iff.mp hknown
          cases hdecoded : Schema.decode (Schema.dereference schemas schema) with
          | error fault =>
              simp only [hknown, hdecoded]
              exact .malformed ⟨schemas, schema, husable, hfirst, hdecoded⟩
          | ok s =>
              simp only [hknown, hdecoded]
              exact .decoded ⟨schemas, schema, husable, hfirst, hdecoded⟩

/-- A describe step is what the search does. -/
theorem DescribeStep.eq (hstep : DescribeStep apiVersion kind body r) :
    describe apiVersion kind body = r := by
  cases hstep with
  | unusable huseless =>
      have hnothing : usable? body = none := Option.eq_none_iff_forall_ne_some.mpr
        fun schemas husable => huseless schemas (usable?_eq_some_iff.mp husable)
      simp only [describe, hnothing]
  | untagged hlacks =>
      obtain ⟨schemas, husable, hunknown⟩ := hlacks
      simp only [describe, usable?_eq_some_iff.mpr husable, find?_eq_none_iff.mpr hunknown]
  | malformed hdescribes =>
      obtain ⟨schemas, schema, husable, hknown, hdecoded⟩ := hdescribes
      simp only [describe, usable?_eq_some_iff.mpr husable, find?_eq_some_iff.mpr hknown, hdecoded]
  | decoded hdescribes =>
      obtain ⟨schemas, schema, husable, hknown, hdecoded⟩ := hdescribes
      simp only [describe, usable?_eq_some_iff.mpr husable, find?_eq_some_iff.mpr hknown, hdecoded]

theorem describe_eq_iff :
    describe apiVersion kind body = r ↔ DescribeStep apiVersion kind body r :=
  ⟨fun hsame => hsame ▸ describe_step apiVersion kind body, DescribeStep.eq⟩

theorem describe_eq_ok_iff {s : Schema} :
    describe apiVersion kind body = .ok s ↔ Describes apiVersion kind body (.ok s) := by
  rw [describe_eq_iff]
  constructor
  · rintro (_ | _ | _ | hdescribes)
    exact hdescribes
  · exact .decoded

theorem describe_eq_noUsableApiDescription_iff :
    describe apiVersion kind body = .error .noUsableApiDescription ↔
      (∀ schemas, ¬ IsUsable body schemas) ∨
        ∃ fault, Describes apiVersion kind body (.error fault) := by
  rw [describe_eq_iff]
  constructor
  · rintro (huseless | _ | hdescribes)
    · exact .inl huseless
    · exact .inr ⟨_, hdescribes⟩
  · rintro (huseless | ⟨fault, hdescribes⟩)
    · exact .unusable huseless
    · exact .malformed hdescribes

/-- A kind that is not found is the one that was searched for. -/
theorem describe_eq_resourceNotFound_iff {v n : String} :
    describe apiVersion kind body = .error (.resourceNotFound v n) ↔
      (v = apiVersion ∧ n = kind) ∧ LacksKind apiVersion kind body := by
  rw [describe_eq_iff]
  constructor
  · rintro (_ | hlacks)
    exact ⟨⟨rfl, rfl⟩, hlacks⟩
  · rintro ⟨⟨rfl, rfl⟩, hlacks⟩
    exact .untagged hlacks

theorem describe_ne_noActiveContext : describe apiVersion kind body ≠ .error .noActiveContext := by
  intro hsame
  cases describe_eq_iff.mp hsame

theorem describe_ne_transport (e : TransportError) :
    describe apiVersion kind body ≠ .error (.transport e) := by
  intro hsame
  cases describe_eq_iff.mp hsame

end SchemaCache

end Describing

end ManifestForm
