import ManifestForm.Proofs.Schema.Parts
import ManifestForm.Spec.Project
import ManifestForm.Spec.Simplify
import Mathlib.Data.Option.Basic

/-!
# Navigating schemas

A path leads through a schema to the schema of a field, with no spec built on the way. `fields` are
the fields that a schema declares, behind its only member or its items if it has no properties of
its own, and `navigate` steps from field to field. Projecting the spec of a schema gives the spec of
the schema at the end of the path, and fails exactly if no schema stands there.
-/

namespace ManifestForm

namespace Schema

open Spec (isIndex descend?)

/-- The fields of a schema: its properties if it is an object, else those of its only member, else
those of its items if it is an array. -/
def fields : Schema → List (String × Schema)
  | .reference _ => []
  | .inline ⟨type, _, _, properties, items, allOf, _⟩ =>
    if type = some "object" ∧ properties.isSome then properties.getD []
    else
      match allOf with
      | some [member] => fields member
      | some _ => []
      | none =>
        if type = some "array" then
          match items with
          | some item => fields item
          | none => []
        else []

/-- A segment for the items of a sequence: not empty, and made only of digits. -/
def IsNumeric (segment : String) : Prop := segment ≠ "" ∧ ∀ c ∈ segment.toList, c.isDigit = true

theorem isIndex_iff (segment : String) : isIndex segment = true ↔ IsNumeric segment := by
  have hdigit (c : Char) : (decide ('0' ≤ c) && decide (c ≤ '9')) = c.isDigit := rfl
  simp only [isIndex, IsNumeric, hdigit, Bool.and_eq_true, List.all_eq_true, Bool.not_eq_true',
    List.isEmpty_eq_false_iff, ne_eq, String.toList_eq_nil_iff]

instance : DecidablePred IsNumeric := fun segment =>
  decidable_of_iff (isIndex segment = true) (isIndex_iff segment)

/-- The schema at the end of a path. -/
def navigate : List String → Schema → Option Schema
  | [], s => some s
  | segment :: path, s =>
    if IsNumeric segment then navigate path s
    else (s.fields.lookup segment).bind (navigate path)

/-- The last segment of a path that names a field, or the name of the root. -/
def lastName (name : String) (path : List String) : String :=
  (path.filter fun segment => ¬ IsNumeric segment).getLastD name

theorem lastName_cons_of_numeric {segment : String} (h : IsNumeric segment) (name : String)
    (path : List String) : lastName name (segment :: path) = lastName name path := by
  rw [lastName, List.filter_cons_of_neg (by simp [h]), lastName]

theorem lastName_cons_of_field {segment : String} (h : ¬ IsNumeric segment) (name : String)
    (path : List String) : lastName name (segment :: path) = lastName segment path := by
  rw [lastName, List.filter_cons_of_pos (by simp [h]), List.getLastD_cons, lastName]

section Parts

/-- The spec of an inline schema before anything of its insides is known. -/
def bareSpec (name : String) (o : SchemaObject Schema) : Spec :=
  ⟨name, typeText (.inline o), false, o.description.getD "", "", []⟩

/-- How an inline schema comes by its spec. -/
inductive Simplified (name : String) (o : SchemaObject Schema) : Spec → Prop
  | object {ps : List (String × Schema)} {children : List Spec} (ht : o.type = some "object")
      (hp : o.properties = some ps) (hc : simplify.simplifyEach ps = .ok children) :
      Simplified name o { bareSpec name o with children }
  | member {m : Schema} {inner : Spec} (hp : ¬ (o.type = some "object" ∧ o.properties.isSome))
      (hm : o.allOf = some [m]) (hi : simplify "" m = .ok inner) :
      Simplified name o
        { bareSpec name o with typeDescription := inner.description, children := inner.children }
  | array {item : Schema} {inner : Spec} (hm : o.allOf = none) (ht : o.type = some "array")
      (hs : o.items = some item) (hi : simplify "" item = .ok inner) :
      Simplified name o
        { bareSpec name o with
          isArray := true
          typeDescription := inner.typeDescription
          children := inner.children }
  | bareArray (hm : o.allOf = none) (ht : o.type = some "array") (hs : o.items = none) :
      Simplified name o { bareSpec name o with isArray := true }
  | leaf (hp : ¬ (o.type = some "object" ∧ o.properties.isSome)) (hm : o.allOf = none)
      (ht : o.type ≠ some "array") : Simplified name o (bareSpec name o)

theorem ok_of_map_eq_ok {f : α → β} {x : Except ε α} {b : β} (h : x.map f = .ok b) :
    ∃ a, x = .ok a ∧ f a = b := by
  cases x with
  | error e => cases h
  | ok a => exact ⟨a, rfl, Except.ok.inj h⟩

theorem isType_iff {type : String} {o : SchemaObject Schema} :
    o.isType type = true ↔ o.type = some type :=
  beq_iff_eq

theorem not_object_iff {o : SchemaObject Schema} :
    (∀ ps, o.isType "object" = true → o.properties = some ps → False) ↔
      ¬ (o.type = some "object" ∧ o.properties.isSome) := by
  rw [Option.isSome_iff_exists, isType_iff]
  constructor
  · rintro h ⟨ht, ps, hp⟩
    exact h ps ht hp
  · intro h ps ht hp
    exact h ⟨ht, ps, hp⟩

theorem simplify_cases {name : String} {o : SchemaObject Schema} {t : Spec}
    (h : simplify name (.inline o) = .ok t) : Simplified name o t := by
  obtain ⟨type, format, description, properties, items, allOf, additional⟩ := o
  rw [simplify.eq_def] at h
  dsimp only at h
  split at h
  case h_1 ps htype =>
      obtain ⟨children, hc, rfl⟩ := ok_of_map_eq_ok h
      exact .object (isType_iff.mp htype) rfl hc
  case h_2 member hobject =>
      obtain ⟨inner, hi, rfl⟩ := ok_of_map_eq_ok h
      exact .member (not_object_iff.mp hobject) rfl hi
  case h_3 => cases h
  case h_4 item htype hobject =>
      obtain ⟨inner, hi, rfl⟩ := ok_of_map_eq_ok h
      exact .array rfl (isType_iff.mp htype) rfl hi
  case h_5 htype hobject =>
      obtain rfl := Except.ok.inj h
      exact .bareArray rfl (isType_iff.mp htype) rfl
  case h_6 htype hobject =>
      obtain rfl := Except.ok.inj h
      have harray : type ≠ some "array" := by simpa [SchemaObject.isType] using htype
      exact .leaf (not_object_iff.mp hobject) rfl harray

theorem Simplified.name_eq {name : String} {o : SchemaObject Schema} {t : Spec}
    (h : Simplified name o t) : t.name = name := by
  cases h <;> rfl

theorem simplify_name {name : String} {s : Schema} {t : Spec} (h : simplify name s = .ok t) :
    t.name = name := by
  cases s with
  | reference target => rw [simplify] at h; cases h
  | inline o => exact (simplify_cases h).name_eq

theorem fields_inline (o : SchemaObject Schema) :
    fields (.inline o) =
      if o.type = some "object" ∧ o.properties.isSome then o.properties.getD []
      else
        match o.allOf with
        | some [member] => member.fields
        | some _ => []
        | none =>
          if o.type = some "array" then
            match o.items with
            | some item => item.fields
            | none => []
          else [] := by
  rw [fields.eq_def]

/-- The children of a spec are the specs of the fields. -/
theorem simplifyEach_fields {name : String} {s : Schema} {t : Spec}
    (h : simplify name s = .ok t) : simplify.simplifyEach s.fields = .ok t.children := by
  induction s using inductionOn generalizing name t with
  | step s ih =>
      cases s with
      | reference target => rw [simplify] at h; cases h
      | inline o =>
          rw [fields_inline]
          cases simplify_cases h with
          | object ht hp hc =>
              rw [if_pos ⟨ht, by rw [hp]; rfl⟩, hp]
              exact hc
          | member hp hm hi =>
              have hfields := ih _ (.member hm List.mem_cons_self) hi
              rw [if_neg hp, hm]
              exact hfields
          | array hm ht hs hi =>
              have hobject : ¬ (o.type = some "object" ∧ o.properties.isSome) := by simp [ht]
              have hfields := ih _ (.items hs) hi
              rw [if_neg hobject, hm, if_pos ht, hs]
              exact hfields
          | bareArray hm ht hs =>
              have hobject : ¬ (o.type = some "object" ∧ o.properties.isSome) := by simp [ht]
              rw [if_neg hobject, hm, if_pos ht, hs]
              rfl
          | leaf hp hm ht =>
              rw [if_neg hp, hm, if_neg ht]
              rfl

end Parts

section Fields

/-- Every field has its child at the same place, and the child is the spec of the field. -/
theorem rel_getElem?_simplifyEach (i : Nat) {ps : List (String × Schema)} {children : List Spec}
    (h : simplify.simplifyEach ps = .ok children) :
    Option.Rel (fun p c => simplify p.1 p.2 = .ok c) ps[i]? children[i]? := by
  induction ps generalizing i children with
  | nil =>
      obtain rfl := Except.ok.inj h
      exact .none
  | cons p ps ih =>
      obtain ⟨name, s⟩ := p
      rw [simplify.simplifyEach] at h
      split at h
      · cases h
      · next first hfirst =>
          obtain ⟨rest, hrest, rfl⟩ := ok_of_map_eq_ok h
          cases i with
          | zero => exact .some hfirst
          | succ i => exact ih i hrest

/-- The first field of a name and the first child of that name are both there or both missing, and
the child is the spec of the field. -/
theorem rel_find?_simplifyEach (segment : String) {ps : List (String × Schema)}
    {children : List Spec} (h : simplify.simplifyEach ps = .ok children) :
    Option.Rel (fun s c => simplify segment s = .ok c) (ps.lookup segment)
      (children.find? (·.name = segment)) := by
  induction ps generalizing children with
  | nil =>
      obtain rfl := Except.ok.inj h
      exact .none
  | cons p ps ih =>
      obtain ⟨name, s⟩ := p
      rw [simplify.simplifyEach] at h
      split at h
      · cases h
      · next first hfirst =>
          obtain ⟨rest, hrest, rfl⟩ := ok_of_map_eq_ok h
          have hname : first.name = name := simplify_name hfirst
          by_cases heq : segment = name
          · subst heq
            rw [List.lookup_cons_self, List.find?_cons_of_pos (by simpa using hname)]
            exact .some hfirst
          · have hne : first.name ≠ segment := fun hn => heq (hn.symm.trans hname)
            rw [List.lookup_cons, beq_false_of_ne heq, List.find?_cons_of_neg (by simpa using hne)]
            exact ih hrest

/-- A path leads to a schema exactly if it leads to a node of the spec, which is then the spec of
that schema. -/
theorem rel_descend?_simplify (path : List String) {name : String} {s : Schema} {t : Spec}
    (h : simplify name s = .ok t) :
    Option.Rel (fun s' t' => simplify (lastName name path) s' = .ok t') (s.navigate path)
      (descend? path t) := by
  induction path generalizing name s t with
  | nil => exact .some h
  | cons segment path ih =>
      by_cases hindex : IsNumeric segment
      · rw [navigate, if_pos hindex, descend?, if_pos ((isIndex_iff segment).mpr hindex),
          lastName_cons_of_numeric hindex]
        exact ih h
      · rw [navigate, if_neg hindex, descend?, if_neg (mt (isIndex_iff segment).mp hindex),
          lastName_cons_of_field hindex]
        have hrel := rel_find?_simplifyEach segment (simplifyEach_fields h)
        rw [Spec.child?]
        generalize s.fields.lookup segment = s?, t.children.find? (·.name = segment) = t? at hrel ⊢
        cases hrel with
        | none => exact .none
        | some hfield => exact ih hfield

/-- Of a schema that has a spec, each path leads to a schema if and only if the projection along the
path succeeds. The projection is then the spec of that schema, cut at the same depth, and otherwise
it fails with the whole path. -/
theorem project_simplify {name : String} {s : Schema} {t : Spec} (h : simplify name s = .ok t)
    (path : List String) (depth : Nat) :
    (∀ s', s.navigate path = some s' → ∃ t', simplify (lastName name path) s' = .ok t' ∧
      t.project path depth = .ok (t'.limitDepth depth)) ∧
    (s.navigate path = none → t.project path depth = .error (.pathNotFound path)) := by
  have hrel := rel_descend?_simplify path h
  constructor
  · intro s' hs
    rw [hs] at hrel
    cases hd : descend? path t with
    | none => rw [hd] at hrel; cases hrel
    | some t' =>
        rw [hd] at hrel
        cases hrel with
        | some hspec => exact ⟨t', hspec, by rw [Spec.project, hd]⟩
  · intro hs
    rw [hs] at hrel
    cases hd : descend? path t with
    | none => rw [Spec.project, hd]
    | some t' => rw [hd] at hrel; cases hrel

/-- A pod whose containers stand behind a composition, an array and another composition. -/
def podSchema : Schema :=
  let scalar (type : String) : Schema := .inline ⟨some type, none, none, none, none, none, none⟩
  let object (ps : List (String × Schema)) : Schema :=
    .inline ⟨some "object", none, none, some ps, none, none, none⟩
  let array (item : Schema) : Schema :=
    .inline ⟨some "array", none, none, none, some item, none, none⟩
  let single (member : Schema) : Schema :=
    .inline ⟨none, none, none, none, none, some [member], none⟩
  let container := object
    [("image", scalar "string"), ("ports", array (object [("containerPort", scalar "integer")]))]
  object [("spec", single (object [("containers", array (single container))]))]

/-- The ports of a container, with numbers on the way and at the end, and a field missed by one. -/
theorem project_simplify_podSchema :
    ∃ t, simplify "pod" podSchema = .ok t ∧
      t.project ["spec", "containers", "0", "ports", "1"] 1 =
        .ok ⟨"ports", "[]object", true, "", "",
          [⟨"containerPort", "integer", false, "", "", []⟩]⟩ ∧
      t.project ["spec", "0", "image"] 1 = .error (.pathNotFound ["spec", "0", "image"]) := by
  have hspec : ∃ t, simplify "pod" podSchema = .ok t := ⟨_, rfl⟩
  obtain ⟨t, ht⟩ := hspec
  have hmissing : podSchema.navigate ["spec", "0", "image"] = none := rfl
  refine ⟨t, ht, ?_, (project_simplify ht ["spec", "0", "image"] 1).2 hmissing⟩
  obtain ⟨ports, hports, hproject⟩ :=
    (project_simplify ht ["spec", "containers", "0", "ports", "1"] 1).1 _ rfl
  obtain rfl := Except.ok.inj hports
  rw [hproject]
  rfl

end Fields

end Schema

end ManifestForm
