import ManifestForm.Proofs.Schema.Parts
import ManifestForm.Proofs.Spec.Navigation

/-!
# Schemas without a spec

A spec shows some of the parts of a schema: the properties of an object, else the only member of
a composition, else the items of an array. Simplification goes through what is shown, from the root
on, and fails exactly if it meets a fault there. What is hidden behind another part is never looked
at.
-/

namespace ManifestForm.Schema

open Relation (ReflTransGen)

/-- An object that is shown by its properties. -/
def ShowsProperties (o : SchemaObject Schema) : Prop :=
  o.type = some "object" ∧ o.properties.isSome

theorem showsProperties_of_eq {o : SchemaObject Schema} {ps : List (String × Schema)}
    (ht : o.type = some "object") (hp : o.properties = some ps) : ShowsProperties o :=
  ⟨ht, by rw [hp]; rfl⟩

/-- A schema with a part that its spec shows, each beside the name that it goes by. -/
inductive Shows : String × Schema → String × Schema → Prop
  | property {name : String} {o : SchemaObject Schema} {ps : List (String × Schema)}
      {entry : String × Schema} (ht : o.type = some "object") (hp : o.properties = some ps)
      (hmem : entry ∈ ps) : Shows (name, .inline o) entry
  | member {name : String} {o : SchemaObject Schema} {part : Schema} (hp : ¬ ShowsProperties o)
      (hm : o.allOf = some [part]) : Shows (name, .inline o) ("", part)
  | items {name : String} {o : SchemaObject Schema} {part : Schema} (hm : o.allOf = none)
      (ht : o.type = some "array") (hi : o.items = some part) : Shows (name, .inline o) ("", part)

/-- What is at fault with a schema itself: it is a reference, or a composition of other than one
member that does not stand behind properties. -/
inductive HasFault : Schema → ShapeFault → Prop
  | reference {target : String} : HasFault (.reference target) .unresolvedReference
  | composition {o : SchemaObject Schema} {members : List Schema} (hp : ¬ ShowsProperties o)
      (hm : o.allOf = some members) (hlength : members.length ≠ 1) :
      HasFault (.inline o) (.composition members.length)

theorem Shows.hasPart {a b : String × Schema} (h : Shows a b) : HasPart a.2 b.2 := by
  cases h with
  | property ht hp hmem => exact .property hp hmem
  | member hp hm => exact .member hm List.mem_cons_self
  | items hm ht hi => exact .items hi

section Failures

theorem error_of_map_eq_error {f : α → β} {x : Except ε α} {e : ε} (h : x.map f = .error e) :
    x = .error e := by
  cases x with
  | error e' => exact congrArg Except.error (Except.error.inj h)
  | ok a => cases h

theorem exists_error_of_simplifyEach {ps : List (String × Schema)} {e : SpecError}
    (h : simplify.simplifyEach ps = .error e) :
    ∃ entry ∈ ps, simplify entry.1 entry.2 = .error e := by
  induction ps with
  | nil => cases h
  | cons entry ps ih =>
      obtain ⟨field, s⟩ := entry
      rw [simplify.simplifyEach] at h
      split at h
      · next e' hfirst =>
          obtain rfl := Except.error.inj h
          exact ⟨(field, s), List.mem_cons_self, hfirst⟩
      · next first hfirst =>
          obtain ⟨entry, hmem, hentry⟩ := ih (error_of_map_eq_error h)
          exact ⟨entry, List.mem_cons_of_mem _ hmem, hentry⟩

/-- Simplification fails for a part that is shown, or for a fault of the schema itself. -/
theorem simplify_error_cases {name : String} {o : SchemaObject Schema} {e : SpecError}
    (h : simplify name (.inline o) = .error e) :
    (∃ entry, Shows (name, .inline o) entry ∧ simplify entry.1 entry.2 = .error e) ∨
      ∃ fault, HasFault (.inline o) fault ∧ e = .unsupported name fault := by
  obtain ⟨type, format, description, properties, items, allOf, additional⟩ := o
  rw [simplify.eq_def] at h
  dsimp only at h
  split at h
  case h_1 ps htype =>
      obtain ⟨entry, hmem, he⟩ := exists_error_of_simplifyEach (error_of_map_eq_error h)
      exact .inl ⟨entry, .property (isType_iff.mp htype) rfl hmem, he⟩
  case h_2 member hobject =>
      exact .inl ⟨("", member), .member (not_object_iff.mp hobject) rfl, error_of_map_eq_error h⟩
  case h_3 members hsingle hobject =>
      have hlength : members.length ≠ 1 := by
        intro hone
        obtain ⟨member, rfl⟩ := List.length_eq_one_iff.mp hone
        exact hsingle member rfl
      exact .inr
        ⟨_, .composition (not_object_iff.mp hobject) rfl hlength, (Except.error.inj h).symm⟩
  case h_4 item htype hobject =>
      exact .inl ⟨("", item), .items rfl (isType_iff.mp htype) rfl, error_of_map_eq_error h⟩
  case h_5 => cases h
  case h_6 => cases h

/-- A failure names a schema that is shown, and tells its fault. -/
theorem exists_fault_of_simplify {name : String} {s : Schema} {e : SpecError}
    (h : simplify name s = .error e) :
    ∃ entry fault, ReflTransGen Shows (name, s) entry ∧ HasFault entry.2 fault ∧
      e = .unsupported entry.1 fault := by
  induction s using inductionOn generalizing name with
  | step s ih =>
      cases s with
      | reference target =>
          rw [simplify] at h
          exact ⟨(name, .reference target), _, .refl, .reference, (Except.error.inj h).symm⟩
      | inline o =>
          rcases simplify_error_cases h with ⟨entry, hshows, he⟩ | ⟨fault, hfault, he⟩
          · obtain ⟨last, fault, hlast, hfault⟩ := ih entry.2 hshows.hasPart he
            exact ⟨last, fault, hlast.head hshows, hfault⟩
          · exact ⟨(name, .inline o), fault, .refl, hfault, he⟩

end Failures

section Successes

theorem exists_spec_of_mem {ps : List (String × Schema)} {children : List Spec}
    (h : simplify.simplifyEach ps = .ok children) {entry : String × Schema} (hmem : entry ∈ ps) :
    ∃ u, simplify entry.1 entry.2 = .ok u := by
  obtain ⟨i, hi⟩ := List.getElem?_of_mem hmem
  have hrel := rel_getElem?_simplifyEach i h
  rw [hi] at hrel
  generalize children[i]? = child? at hrel
  cases hrel with
  | some hu => exact ⟨_, hu⟩

/-- Where a schema has a spec, so has each part that is shown. -/
theorem Shows.exists_spec {name field : String} {s part : Schema} {t : Spec}
    (hshows : Shows (name, s) (field, part)) (h : simplify name s = .ok t) :
    ∃ u, simplify field part = .ok u := by
  -- What is shown decides how the spec came about: in each case only one way is left.
  cases hshows with
  | property ht hp hmem =>
      cases simplify_cases h with
      | object ht' hp' hc =>
          obtain rfl := Option.some.inj (hp.symm.trans hp')
          exact exists_spec_of_mem hc hmem
      | member hp' => exact absurd (showsProperties_of_eq ht hp) hp'
      | array hm ht' => exact absurd (ht.symm.trans ht') (by decide)
      | bareArray hm ht' => exact absurd (ht.symm.trans ht') (by decide)
      | leaf hp' => exact absurd (showsProperties_of_eq ht hp) hp'
  | member hp hm =>
      cases simplify_cases h with
      | object ht' hp' hc => exact absurd (showsProperties_of_eq ht' hp') hp
      | member hp' hm' hi =>
          obtain ⟨rfl, -⟩ := List.cons.inj (Option.some.inj (hm.symm.trans hm'))
          exact ⟨_, hi⟩
      | array hm' => cases hm.symm.trans hm'
      | bareArray hm' => cases hm.symm.trans hm'
      | leaf hp' hm' => cases hm.symm.trans hm'
  | items hm ht hi =>
      cases simplify_cases h with
      | object ht' hp' hc => exact absurd (ht.symm.trans ht') (by decide)
      | member hp' hm' => cases hm.symm.trans hm'
      | array hm' ht' hi' hitem =>
          obtain rfl := Option.some.inj (hi.symm.trans hi')
          exact ⟨_, hitem⟩
      | bareArray hm' ht' hi' => cases hi.symm.trans hi'
      | leaf hp' hm' ht' => exact absurd ht ht'

theorem exists_spec_of_shown {a b : String × Schema} (hshown : ReflTransGen Shows a b) {t : Spec}
    (h : simplify a.1 a.2 = .ok t) : ∃ u, simplify b.1 b.2 = .ok u := by
  induction hshown with
  | refl => exact ⟨t, h⟩
  | tail _ hshows ih =>
      obtain ⟨u, hu⟩ := ih
      exact hshows.exists_spec hu

theorem not_hasFault_of_simplify {name : String} {s : Schema} {t : Spec}
    (h : simplify name s = .ok t) (fault : ShapeFault) : ¬ HasFault s fault := by
  intro hfault
  cases hfault with
  | reference => rw [simplify] at h; cases h
  | composition hp hm hlength =>
      cases simplify_cases h with
      | object ht' hp' hc => exact hp (showsProperties_of_eq ht' hp')
      | member hp' hm' hi =>
          obtain rfl := Option.some.inj (hm.symm.trans hm')
          exact hlength rfl
      | array hm' => cases hm.symm.trans hm'
      | bareArray hm' => cases hm.symm.trans hm'
      | leaf hp' hm' => cases hm.symm.trans hm'

section Iff

variable {name : String} {s : Schema}

/-- Simplification succeeds exactly if no schema with a fault is shown. -/
theorem exists_spec_iff :
    (∃ t, simplify name s = .ok t) ↔
      ¬ ∃ entry fault, ReflTransGen Shows (name, s) entry ∧ HasFault entry.2 fault := by
  constructor
  · rintro ⟨t, ht⟩ ⟨entry, fault, hshown, hfault⟩
    obtain ⟨u, hu⟩ := exists_spec_of_shown hshown ht
    exact not_hasFault_of_simplify hu fault hfault
  · intro hnone
    cases hs : simplify name s with
    | ok t => exact ⟨t, rfl⟩
    | error e =>
        obtain ⟨entry, fault, hshown, hfault, -⟩ := exists_fault_of_simplify hs
        exact absurd ⟨entry, fault, hshown, hfault⟩ hnone

/-- There is no other failure. -/
theorem exists_unsupported_iff :
    (∃ field fault, simplify name s = .error (.unsupported field fault)) ↔
      ∃ entry fault, ReflTransGen Shows (name, s) entry ∧ HasFault entry.2 fault := by
  constructor
  · rintro ⟨field, fault, he⟩
    obtain ⟨entry, fault', hshown, hfault, -⟩ := exists_fault_of_simplify he
    exact ⟨entry, fault', hshown, hfault⟩
  · intro hfault
    cases hs : simplify name s with
    | ok t => exact absurd hfault (exists_spec_iff.mp ⟨t, hs⟩)
    | error e =>
        obtain ⟨entry, fault, -, -, rfl⟩ := exists_fault_of_simplify hs
        exact ⟨entry.1, fault, rfl⟩

end Iff

end Successes

section HiddenFaults

/-- A reference, or a composition of other than one member. -/
inductive IsUnsupported : Schema → Prop
  | reference {target : String} : IsUnsupported (.reference target)
  | composition {o : SchemaObject Schema} {members : List Schema} (hm : o.allOf = some members)
      (hlength : members.length ≠ 1) : IsUnsupported (.inline o)

/-- What the spec of a schema hides is unsupported: a composition behind properties, or something
in a part that is not shown. -/
inductive HidesUnsupported : Schema → Prop
  | composition {o : SchemaObject Schema} {members : List Schema} (hp : ShowsProperties o)
      (hm : o.allOf = some members) (hlength : members.length ≠ 1) : HidesUnsupported (.inline o)
  | part {s part below : Schema} (hpart : HasPart s part)
      (hhidden : ∀ name field, ¬ Shows (name, s) (field, part))
      (hbelow : ReflTransGen HasPart part below) (hunsupported : IsUnsupported below) :
      HidesUnsupported s

theorem HasFault.isUnsupported {s : Schema} {fault : ShapeFault} (h : HasFault s fault) :
    IsUnsupported s := by
  cases h with
  | reference => exact .reference
  | composition hp hm hlength => exact .composition hm hlength

theorem IsUnsupported.hasFault_or {s : Schema} (h : IsUnsupported s) :
    (∃ fault, HasFault s fault) ∨ HidesUnsupported s := by
  cases h with
  | reference => exact .inl ⟨_, .reference⟩
  | @composition o members hm hlength =>
      by_cases hp : ShowsProperties o
      · exact .inr (.composition hp hm hlength)
      · exact .inl ⟨_, .composition hp hm hlength⟩

theorem HidesUnsupported.exists_below {s : Schema} (h : HidesUnsupported s) :
    ∃ below, ReflTransGen HasPart s below ∧ IsUnsupported below := by
  cases h with
  | composition hp hm hlength => exact ⟨_, .refl, .composition hm hlength⟩
  | part hpart hhidden hbelow hunsupported => exact ⟨_, hbelow.head hpart, hunsupported⟩

/-- The name of a schema does not count for what is shown of it. -/
theorem Shows.rename {name : String} {s : Schema} {entry : String × Schema}
    (h : Shows (name, s) entry) (other : String) : Shows (other, s) entry := by
  cases h with
  | property ht hp hmem => exact .property ht hp hmem
  | member hp hm => exact .member hp hm
  | items hm ht hi => exact .items hm ht hi

/-- Something unsupported is met as a fault, or it is hidden on the way there. -/
theorem fault_or_hidden {s below : Schema} (hbelow : ReflTransGen HasPart s below)
    (hunsupported : IsUnsupported below) (name : String) :
    ∃ entry, ReflTransGen Shows (name, s) entry ∧
      ((∃ fault, HasFault entry.2 fault) ∨ HidesUnsupported entry.2) := by
  induction hbelow using ReflTransGen.head_induction_on generalizing name with
  | refl => exact ⟨(name, below), .refl, hunsupported.hasFault_or⟩
  | @head s part hpart hbelow ih =>
      by_cases hshown : ∃ other field, Shows (other, s) (field, part)
      · obtain ⟨other, field, hshows⟩ := hshown
        obtain ⟨entry, hentry, hends⟩ := ih field
        exact ⟨entry, hentry.head (hshows.rename name), hends⟩
      · have hhidden : ∀ other field, ¬ Shows (other, s) (field, part) :=
          fun other field hshows => hshown ⟨other, field, hshows⟩
        exact ⟨(name, s), .refl, .inr (.part hpart hhidden hbelow hunsupported)⟩

theorem exists_below_of_shown {a b : String × Schema} (hshown : ReflTransGen Shows a b)
    (h : ∃ below, ReflTransGen HasPart b.2 below ∧ IsUnsupported below) :
    ∃ below, ReflTransGen HasPart a.2 below ∧ IsUnsupported below := by
  obtain ⟨below, hbelow, hunsupported⟩ := h
  have hparts : ReflTransGen HasPart a.2 b.2 := hshown.lift Prod.snd fun _ _ => Shows.hasPart
  exact ⟨below, hparts.trans hbelow, hunsupported⟩

/-- Simplification fails if and only if a reference or a composition of other than one member is met
among what is shown; the failure names a schema where it is, and in all other cases there is a spec.
So there is something unsupported at the root or below it exactly if simplification fails or
something unsupported is hidden behind what is shown. -/
theorem simplify_fails_iff (name : String) (s : Schema) :
    ((∃ field fault, simplify name s = .error (.unsupported field fault)) ↔
      ∃ entry fault, ReflTransGen Shows (name, s) entry ∧ HasFault entry.2 fault) ∧
    ((∃ t, simplify name s = .ok t) ↔
      ¬ ∃ entry fault, ReflTransGen Shows (name, s) entry ∧ HasFault entry.2 fault) ∧
    (∀ e, simplify name s = .error e → ∃ entry fault, ReflTransGen Shows (name, s) entry ∧
      HasFault entry.2 fault ∧ e = .unsupported entry.1 fault) ∧
    ((∃ below, ReflTransGen HasPart s below ∧ IsUnsupported below) ↔
      (∃ field fault, simplify name s = .error (.unsupported field fault)) ∨
        ∃ entry, ReflTransGen Shows (name, s) entry ∧ HidesUnsupported entry.2) := by
  refine ⟨exists_unsupported_iff, exists_spec_iff, fun e => exists_fault_of_simplify, ?_⟩
  rw [exists_unsupported_iff]
  constructor
  · rintro ⟨below, hbelow, hunsupported⟩
    obtain ⟨entry, hshown, ⟨fault, hfault⟩ | hhides⟩ := fault_or_hidden hbelow hunsupported name
    · exact .inl ⟨entry, fault, hshown, hfault⟩
    · exact .inr ⟨entry, hshown, hhides⟩
  · rintro (⟨entry, fault, hshown, hfault⟩ | ⟨entry, hshown, hhides⟩)
    · exact exists_below_of_shown hshown ⟨entry.2, .refl, hfault.isUnsupported⟩
    · exact exists_below_of_shown hshown hhides.exists_below

/-- A map whose values are a reference. -/
def mapOfQuantities : Schema :=
  .inline ⟨some "object", none, none, none, none, none,
    some (.values (.reference "#/components/schemas/Quantity"))⟩

/-- The reference of the values is hidden, and the map has a spec. -/
theorem simplify_mapOfQuantities :
    (∃ below, ReflTransGen HasPart mapOfQuantities below ∧ IsUnsupported below) ∧
      simplify "limits" mapOfQuantities = .ok ⟨"limits", "object", false, "", "", []⟩ ∧
      ∃ entry, ReflTransGen Shows ("limits", mapOfQuantities) entry ∧
        HidesUnsupported entry.2 := by
  have hspec : simplify "limits" mapOfQuantities = .ok ⟨"limits", "object", false, "", "", []⟩ :=
    rfl
  have hbelow : ∃ below, ReflTransGen HasPart mapOfQuantities below ∧ IsUnsupported below :=
    ⟨_, .single (.values rfl), .reference⟩
  refine ⟨hbelow, hspec, ?_⟩
  rcases (simplify_fails_iff "limits" mapOfQuantities).2.2.2.mp hbelow with
    ⟨field, fault, hfails⟩ | hhidden
  · cases hspec.symm.trans hfails
  · exact hhidden

end HiddenFaults

end ManifestForm.Schema
