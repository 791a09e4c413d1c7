import ManifestForm.Proofs.Spec.Navigation

/-!
# Arrays in specs

The nodes of a spec stand for the fields of the schema, place by place. The type of a node shows
every array. The mark of an array is set only where the schema has no composition, because the
members of a composition come before the items of an array.
-/

namespace ManifestForm

/-- The node at the end of a path of places among children. -/
def Spec.nodeAt? : List Nat → Spec → Option Spec
  | [], t => some t
  | i :: places, t => (t.children[i]?).bind (nodeAt? places)

namespace Schema

/-- The schema at the end of a path of places among fields. -/
def fieldAt? : List Nat → Schema → Option Schema
  | [], s => some s
  | i :: places, s => (s.fields[i]?).bind fun field => fieldAt? places field.2

/-- A schema that declares the type of an array. -/
def IsArray : Schema → Prop
  | .reference _ => False
  | .inline o => o.type = some "array"

def IsComposed : Schema → Prop
  | .reference _ => False
  | .inline o => o.allOf.isSome

/-- A node tells whether its schema is an array: by its mark if the schema has no composition, and
by the text of its type also if it has one. -/
structure TellsArray (s : Schema) (n : Spec) : Prop where
  isArray_iff : n.isArray = true ↔ s.IsArray ∧ ¬ s.IsComposed
  type_eq : s.IsArray → ∃ element, n.type = "[]" ++ element

theorem typeText_of_array {o : SchemaObject Schema} (h : o.type = some "array") :
    typeText (.inline o) = "[]" ++ typeText.elementText o.items := by
  obtain ⟨type, format, description, properties, items, allOf, additional⟩ := o
  cases h
  rw [typeText.eq_def]
  exact if_pos rfl

theorem Simplified.type_eq {name : String} {o : SchemaObject Schema} {t : Spec}
    (h : Simplified name o t) : t.type = typeText (.inline o) := by
  cases h <;> rfl

theorem Simplified.isArray_iff {name : String} {o : SchemaObject Schema} {t : Spec}
    (h : Simplified name o t) : t.isArray = true ↔ o.type = some "array" ∧ o.allOf = none := by
  cases h with
  | object ht hp hc => simp [bareSpec, ht]
  | member hp hm hi => simp [bareSpec, hm]
  | array hm ht hs hi => simp [hm, ht]
  | bareArray hm ht hs => simp [hm, ht]
  | leaf hp hm ht => simp [bareSpec, ht]

theorem tellsArray_of_simplify {name : String} {s : Schema} {t : Spec}
    (h : simplify name s = .ok t) : TellsArray s t := by
  cases s with
  | reference target => rw [simplify] at h; cases h
  | inline o =>
      have hspec := simplify_cases h
      refine ⟨?_, ?_⟩
      · rw [hspec.isArray_iff, IsArray, IsComposed, Option.not_isSome_iff_eq_none]
      · intro harray
        exact ⟨_, hspec.type_eq.trans (typeText_of_array harray)⟩

/-- A place among the fields has a node exactly if there is a field, and the node is its spec. -/
theorem rel_nodeAt?_simplify (places : List Nat) {name : String} {s : Schema} {t : Spec}
    (h : simplify name s = .ok t) :
    Option.Rel (fun s' n => ∃ field, simplify field s' = .ok n) (s.fieldAt? places)
      (t.nodeAt? places) := by
  induction places generalizing name s t with
  | nil => exact .some ⟨name, h⟩
  | cons i places ih =>
      have hrel := rel_getElem?_simplifyEach i (simplifyEach_fields h)
      rw [fieldAt?, Spec.nodeAt?]
      generalize s.fields[i]? = field?, t.children[i]? = child? at hrel ⊢
      cases hrel with
      | none => exact .none
      | some hfield => exact ih hfield

/-- The nodes of a spec stand for the fields of its schema, at the root and everywhere below it, and
each tells whether its schema is an array. So a node that is marked as an array has a type
that starts with brackets. -/
theorem arrays_of_simplify {name : String} {s : Schema} {t : Spec} (h : simplify name s = .ok t)
    (places : List Nat) :
    Option.Rel TellsArray (s.fieldAt? places) (t.nodeAt? places) ∧
      ∀ n, t.nodeAt? places = some n → n.isArray = true → ∃ element, n.type = "[]" ++ element := by
  have hrel := rel_nodeAt?_simplify places h
  generalize s.fieldAt? places = s?, t.nodeAt? places = n? at hrel ⊢
  cases hrel with
  | none => exact ⟨.none, by simp⟩
  | some hspec =>
      obtain ⟨field, hfield⟩ := hspec
      have htells := tellsArray_of_simplify hfield
      refine ⟨.some htells, ?_⟩
      rintro n ⟨⟩ hmarked
      exact htells.type_eq (htells.isArray_iff.mp hmarked).1

/-- A container with an array and with a composition that declares the type of an array. -/
def containerSchema : Schema :=
  .inline ⟨some "object", none, none,
    some
      [("args", .inline ⟨some "array", none, none, none,
        some (.inline ⟨some "string", none, none, none, none, none, none⟩), none, none⟩),
      ("ports", .inline ⟨some "array", none, none, none, none,
        some [.inline ⟨none, none, some "all ports", none, none, none, none⟩], none⟩)],
    none, none, none⟩

def containerSpec : Spec :=
  ⟨"container", "object", false, "", "",
    [⟨"args", "[]string", true, "", "", []⟩, ⟨"ports", "[]", false, "", "all ports", []⟩]⟩

/-- Both fields show arrays by their types, and the composition is not marked as one. -/
theorem arrays_of_containerSpec :
    simplify "container" containerSchema = .ok containerSpec ∧
      (∃ args, containerSpec.nodeAt? [0] = some args ∧ args.isArray = true ∧
        ∃ element, args.type = "[]" ++ element) ∧
      ∃ ports s, containerSpec.nodeAt? [1] = some ports ∧ ports.isArray = false ∧
        containerSchema.fieldAt? [1] = some s ∧ s.IsArray ∧ TellsArray s ports := by
  have hspec : simplify "container" containerSchema = .ok containerSpec := rfl
  refine ⟨hspec, ?_, ?_⟩
  · exact ⟨_, rfl, rfl, (arrays_of_simplify hspec [0]).2 _ rfl rfl⟩
  · refine ⟨_, _, rfl, rfl, rfl, rfl, ?_⟩
    cases (arrays_of_simplify hspec [1]).1 with
    | some htells => exact htells

end Schema

end ManifestForm
