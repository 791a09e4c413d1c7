import ManifestForm.Proofs.Schema.InPlace
import Mathlib.Data.Finset.Card
import Mathlib.Data.Finset.SDiff
import Mathlib.Order.WellFounded

/-!
# Inlining without a limit

The same inlining with no count of steps. It ends for every map of components, because a call opens
a component that was not open, of which there are finitely many, or goes to a smaller schema under
the same ones. Where its calls stay within the limit, the limit is never felt.
-/

namespace ManifestForm.Schema

/-- The schemas right below a schema. -/
def subschemas : Json → List Json
  | .obj kvs => kvs.flatMap fun (key, v) => entrySchemas key v
  | _ => []

/-- Only the schemas of an entry play a part in how it is mapped. -/
theorem mapEntry_congr {f g : Json → Json} {key : String} {v : Json}
    (h : ∀ u ∈ entrySchemas key v, f u = g u) : mapEntry f key v = mapEntry g key v := by
  cases v with
  | arr members =>
      rw [mapEntry, mapEntry]
      by_cases hkey : isComposition key = true
      · rw [if_pos hkey, if_pos hkey, List.map_congr_left]
        intro u hu
        exact h u (by rw [entrySchemas, if_pos hkey]; exact hu)
      · rw [if_neg hkey, if_neg hkey]
  | obj properties =>
      rw [mapEntry, mapEntry]
      by_cases hkey : key = "properties"
      · rw [if_pos hkey, if_pos hkey, List.map_congr_left]
        rintro ⟨name, p⟩ hp
        have hmem : p ∈ properties.map (·.2) := List.mem_map_of_mem (f := (·.2)) hp
        dsimp only
        rw [h p (by rwa [entrySchemas, if_pos hkey])]
      · rw [if_neg hkey, if_neg hkey]
        by_cases hsub : isSubschema key = true
        · rw [if_pos hsub, if_pos hsub]
          apply h
          rw [entrySchemas, if_neg hkey, if_pos hsub]
          exact List.mem_singleton_self _
        · rw [if_neg hsub, if_neg hsub]
  | _ => rfl

theorem sizeOf_le_of_mem_entrySchemas {key : String} {v u : Json} (h : u ∈ entrySchemas key v) :
    sizeOf u ≤ sizeOf v := by
  cases v with
  | arr members =>
      rw [entrySchemas] at h
      split at h
      · have hlt := List.sizeOf_lt_of_mem h
        simp only [Json.arr.sizeOf_spec]
        omega
      · cases h
  | obj properties =>
      rw [entrySchemas] at h
      split at h
      · obtain ⟨⟨name, p⟩, hp, rfl⟩ := List.mem_map.mp h
        have hlt := List.sizeOf_lt_of_mem hp
        simp only [Json.obj.sizeOf_spec, Prod.mk.sizeOf_spec] at hlt ⊢
        omega
      · split at h
        · rw [List.mem_singleton.mp h]
        · cases h
  | _ => cases h

/-- A schema within another one is smaller. -/
theorem sizeOf_lt_of_mem_subschemas {v u : Json} (h : u ∈ subschemas v) : sizeOf u < sizeOf v := by
  cases v with
  | obj kvs =>
      obtain ⟨⟨key, w⟩, hmem, hu⟩ := List.mem_flatMap.mp h
      have hle := sizeOf_le_of_mem_entrySchemas hu
      have hlt := List.sizeOf_lt_of_mem hmem
      simp only [Json.obj.sizeOf_spec, Prod.mk.sizeOf_spec] at hlt ⊢
      omega
  | _ => cases h

/-- A call of the inliner: a node, and the components being expanded around it. -/
structure Call where
  opened : Finset String
  node : Json

/-- The calls that a call makes: one for the component that a reference opens, or one for each
schema below a node that is no reference. -/
def calls (components : Json.Object) (c : Call) : List Call :=
  match reference? c.node with
  | some text =>
    if componentName text ∈ c.opened then []
    else
      match components.lookup (componentName text) with
      | none => []
      | some target => [⟨insert (componentName text) c.opened, target⟩]
  | none => (subschemas c.node).map fun u => ⟨c.opened, u⟩

/-- The calls below a call go at most `n` deep. -/
def CallsWithin (components : Json.Object) : Nat → Call → Prop
  | 0, c => calls components c = []
  | n + 1, c => ∀ below ∈ calls components c, CallsWithin components n below

/-- The components that are not being expanded. -/
def unopened (components : Json.Object) (opened : Finset String) : Finset String :=
  (Json.Object.keys components).toFinset \ opened

section Calls

variable {components : Json.Object}

instance decidableCallsWithin : (n : Nat) → (c : Call) → Decidable (CallsWithin components n c)
  | 0, c => decidable_of_iff ((calls components c).isEmpty = true) List.isEmpty_iff
  | n + 1, c =>
    have : DecidablePred (CallsWithin components n) := decidableCallsWithin n
    inferInstanceAs (Decidable (∀ below ∈ calls components c, CallsWithin components n below))

/-- The calls of a call need one level less. -/
theorem CallsWithin.below {n : Nat} {c c' : Call} (h : CallsWithin components n c)
    (hc : c' ∈ calls components c) : ∃ m, n = m + 1 ∧ CallsWithin components m c' := by
  cases n with
  | zero =>
      rw [CallsWithin] at h
      rw [h] at hc
      cases hc
  | succ m => exact ⟨m, rfl, h c' hc⟩

/-- A reference that is opened leaves fewer to open. -/
theorem card_unopened_insert_lt {name : String} {opened : Finset String} {target : Json}
    (hnew : name ∉ opened) (htarget : components.lookup name = some target) :
    (unopened components (insert name opened)).card < (unopened components opened).card := by
  have hname : name ∈ Json.Object.keys components := by
    obtain ⟨before, after, hsplit, -⟩ := List.lookup_eq_some_iff.mp htarget
    simp [Json.Object.keys, hsplit]
  apply Finset.card_lt_card
  rw [unopened, unopened]
  constructor
  · apply Finset.sdiff_subset_sdiff (Finset.Subset.refl _)
    exact Finset.subset_insert name opened
  · intro hsubset
    have hmem : name ∈ (Json.Object.keys components).toFinset \ opened :=
      Finset.mem_sdiff.mpr ⟨List.mem_toFinset.mpr hname, hnew⟩
    exact (Finset.mem_sdiff.mp (hsubset hmem)).2 (Finset.mem_insert_self name opened)

/-- A call leaves fewer components unopened, or as many and a smaller node. -/
theorem lex_of_mem_calls {c c' : Call} (h : c' ∈ calls components c) :
    Prod.Lex (· < ·) (· < ·) ((unopened components c'.opened).card, sizeOf c'.node)
      ((unopened components c.opened).card, sizeOf c.node) := by
  rw [calls] at h
  split at h
  · split at h
    · cases h
    · next hnew =>
        split at h
        · cases h
        · next target htarget =>
            rw [List.mem_singleton.mp h]
            exact Prod.Lex.left _ _ (card_unopened_insert_lt hnew htarget)
  · obtain ⟨u, hu, rfl⟩ := List.mem_map.mp h
    exact Prod.Lex.right _ (sizeOf_lt_of_mem_subschemas hu)

/-- Calls come to an end, whatever the references. -/
theorem wellFounded_calls (components : Json.Object) :
    WellFounded fun c' c => c' ∈ calls components c :=
  Subrelation.wf lex_of_mem_calls
    (InvImage.wf (fun c : Call => ((unopened components c.opened).card, sizeOf c.node))
      (Prod.lex Nat.lt_wfRel Nat.lt_wfRel).wf)

end Calls

section Inliner

mutual

/-- Inlines a node within the components being expanded. -/
def inlined (components : Json.Object) (opened : Finset String) (v : Json) : Json :=
  match reference? v with
  | some text =>
    if _hopened : componentName text ∈ opened then stripReference v
    else
      match _htarget : components.lookup (componentName text) with
      | none => stripReference v
      | some target => inlined components (insert (componentName text) opened) target
  | none =>
    match v with
    | .obj kvs => .obj (inlinedEntries components opened kvs)
    | v => v
termination_by ((unopened components opened).card, sizeOf v, 0)
decreasing_by
  · exact Prod.Lex.left _ _ (card_unopened_insert_lt _hopened _htarget)
  · apply Prod.Lex.right
    apply Prod.Lex.left
    simp only [Json.obj.sizeOf_spec]
    omega

def inlinedEntries (components : Json.Object) (opened : Finset String) :
    List (String × Json) → List (String × Json)
  | [] => []
  | (key, v) :: kvs =>
    (key, inlinedEntry components opened key v) :: inlinedEntries components opened kvs
termination_by kvs => ((unopened components opened).card, sizeOf kvs, 0)

def inlinedEntry (components : Json.Object) (opened : Finset String) (key : String) :
    Json → Json
  | .arr members =>
    if isComposition key then .arr (inlinedMembers components opened members) else .arr members
  | .obj properties =>
    if key = "properties" then .obj (inlinedProperties components opened properties)
    else if isSubschema key then inlined components opened (.obj properties)
    else .obj properties
  | v => v
termination_by v => ((unopened components opened).card, sizeOf v, 1)

def inlinedMembers (components : Json.Object) (opened : Finset String) : List Json → List Json
  | [] => []
  | v :: vs => inlined components opened v :: inlinedMembers components opened vs
termination_by vs => ((unopened components opened).card, sizeOf vs, 0)

def inlinedProperties (components : Json.Object) (opened : Finset String) :
    List (String × Json) → List (String × Json)
  | [] => []
  | (name, v) :: kvs =>
    (name, inlined components opened v) :: inlinedProperties components opened kvs
termination_by kvs => ((unopened components opened).card, sizeOf kvs, 0)

end

section Inlined

variable {components : Json.Object} {opened : Finset String} {node : Json}

theorem inlinedMembers_eq (vs : List Json) :
    inlinedMembers components opened vs = vs.map (inlined components opened) := by
  induction vs with
  | nil => rw [inlinedMembers, List.map_nil]
  | cons v vs ih => rw [inlinedMembers, ih, List.map_cons]

theorem inlinedProperties_eq (kvs : List (String × Json)) :
    inlinedProperties components opened kvs =
      kvs.map fun (name, v) => (name, inlined components opened v) := by
  induction kvs with
  | nil => rw [inlinedProperties, List.map_nil]
  | cons kv kvs ih => rw [inlinedProperties, ih, List.map_cons]

/-- An entry is mapped by inlining its schemas. -/
theorem inlinedEntry_eq (key : String) (v : Json) :
    inlinedEntry components opened key v = mapEntry (inlined components opened) key v := by
  cases v with
  | arr members => rw [inlinedEntry, mapEntry, inlinedMembers_eq]
  | obj properties => rw [inlinedEntry, mapEntry, inlinedProperties_eq]
  | _ => simp [inlinedEntry, mapEntry]

theorem inlinedEntries_eq (kvs : List (String × Json)) :
    inlinedEntries components opened kvs =
      kvs.map fun (key, v) => (key, mapEntry (inlined components opened) key v) := by
  induction kvs with
  | nil => rw [inlinedEntries, List.map_nil]
  | cons kv kvs ih => rw [inlinedEntries, ih, inlinedEntry_eq, List.map_cons]

/-- A reference that is open already is left out. -/
theorem inlined_of_opened {text : String} (href : reference? node = some text)
    (hopened : componentName text ∈ opened) :
    inlined components opened node = stripReference node := by
  rw [inlined.eq_def, href]
  exact dif_pos hopened

/-- A reference to nothing is left out. -/
theorem inlined_of_unknown {text : String} (href : reference? node = some text)
    (hunknown : components.lookup (componentName text) = none) :
    inlined components opened node = stripReference node := by
  rw [inlined.eq_def, href]
  dsimp only
  split
  · rfl
  · split
    · rfl
    · next target htarget => rw [hunknown] at htarget; cases htarget

/-- A new reference gives way to what it stands for. -/
theorem inlined_of_target {text : String} {target : Json} (href : reference? node = some text)
    (hnew : componentName text ∉ opened)
    (htarget : components.lookup (componentName text) = some target) :
    inlined components opened node =
      inlined components (insert (componentName text) opened) target := by
  rw [inlined.eq_def, href]
  dsimp only
  rw [dif_neg hnew]
  split
  · next hunknown => rw [htarget] at hunknown; cases hunknown
  · next t ht => rw [htarget] at ht; rw [Option.some.inj ht]

theorem inlined_obj {kvs : Json.Object} (href : reference? (.obj kvs) = none) :
    inlined components opened (.obj kvs) =
      .obj (kvs.map fun (key, v) => (key, mapEntry (inlined components opened) key v)) := by
  rw [inlined.eq_def, href]
  dsimp only
  rw [inlinedEntries_eq]

theorem inlined_of_object?_eq_none (h : node.object? = none) :
    inlined components opened node = node := by
  have href : reference? node = none := by
    cases node with
    | obj kvs => cases h
    | _ => rfl
  rw [inlined.eq_def, href]
  cases node with
  | obj kvs => cases h
  | _ => rfl

theorem calls_of_target {text : String} {target : Json} (href : reference? node = some text)
    (hnew : componentName text ∉ opened)
    (htarget : components.lookup (componentName text) = some target) :
    calls components ⟨opened, node⟩ = [⟨insert (componentName text) opened, target⟩] := by
  rw [calls]
  simp [href, hnew, htarget]

/-- Without a reference the calls are those of the schemas within. -/
theorem calls_of_none (href : reference? node = none) :
    calls components ⟨opened, node⟩ = (subschemas node).map fun u => ⟨opened, u⟩ := by
  rw [calls]
  simp [href]

theorem mem_calls_of_mem_entrySchemas {kvs : Json.Object}
    (href : reference? (.obj kvs) = none) {key : String} {v u : Json} (hv : (key, v) ∈ kvs)
    (hu : u ∈ entrySchemas key v) :
    ⟨opened, u⟩ ∈ calls components ⟨opened, .obj kvs⟩ := by
  have hsub : u ∈ subschemas (.obj kvs) := List.mem_flatMap.mpr ⟨(key, v), hv, hu⟩
  rw [calls_of_none href]
  exact List.mem_map_of_mem hsub

/-- With one step for the node and one for each call below it, inlining in steps is not cut. -/
theorem expand_eq_inlined {n : Nat} {names : List String}
    (h : CallsWithin components n ⟨names.toFinset, node⟩) :
    expand components (n + 1) names node = inlined components names.toFinset node := by
  induction n using Nat.strong_induction_on generalizing names node with
  | h n ih =>
      cases href : reference? node with
      | some text =>
          by_cases hopened : componentName text ∈ names
          · rw [inlined_of_opened href (List.mem_toFinset.mpr hopened)]
            exact expand_of_isCut (v := ⟨n + 1, names, node⟩) (.circular href hopened)
          · cases htarget : components.lookup (componentName text) with
            | none =>
                rw [inlined_of_unknown href htarget]
                exact expand_of_isCut (v := ⟨n + 1, names, node⟩) (.unknown href htarget)
            | some target =>
                have hnew : componentName text ∉ names.toFinset := mt List.mem_toFinset.mp hopened
                have hcalls := calls_of_target href hnew htarget
                obtain ⟨m, rfl, hbelow⟩ := h.below (hcalls ▸ List.mem_singleton_self _)
                rw [expand_of_target href hopened htarget, inlined_of_target href hnew htarget,
                  ← List.toFinset_cons]
                rw [← List.toFinset_cons] at hbelow
                exact ih m (Nat.lt_succ_self m) hbelow
      | none =>
          cases node with
          | obj kvs =>
              rw [expand_obj href, inlined_obj href]
              congr 1
              apply List.map_congr_left
              rintro ⟨key, v⟩ hmem
              have hentry : mapEntry (expand components n names) key v =
                  mapEntry (inlined components names.toFinset) key v := by
                apply mapEntry_congr
                intro u hu
                obtain ⟨m, rfl, hbelow⟩ := h.below (mem_calls_of_mem_entrySchemas href hmem hu)
                exact ih m (Nat.lt_succ_self m) hbelow
              dsimp only
              rw [hentry]
          | _ => rw [expand_of_object?_eq_none rfl, inlined_of_object?_eq_none rfl]

end Inlined

/-- The calls of the inliner without a limit go on for ever from no call. Where they go at most as
deep as the limit from the root, inlining gives the same value, with a set of open components for
each branch as with one set that is shared and left as it was. -/
theorem dereference_eq_inlined :
    (∀ components, WellFounded fun c' c => c' ∈ calls components c) ∧
    (∀ components schema, CallsWithin components maxSteps ⟨∅, schema⟩ →
      dereference components schema = inlined components ∅ schema) ∧
    ∀ (components : Json.DistinctObject) (schema : Json.Distinct),
      CallsWithin components.entries maxSteps ⟨∅, schema.value⟩ →
        (expandInPlace components.entries (maxSteps + 1) schema.value).run ∅ =
          (inlined components.entries ∅ schema.value, ∅) := by
  have hlimit (components : Json.Object) (schema : Json)
      (hcalls : CallsWithin components maxSteps ⟨∅, schema⟩) :
      expand components (maxSteps + 1) [] schema = inlined components [].toFinset schema :=
    expand_eq_inlined hcalls
  refine ⟨wellFounded_calls, hlimit, ?_⟩
  intro components schema hcalls
  rw [← List.toFinset_nil, ← hlimit components.entries schema.value hcalls]
  exact restores_expandInPlace components schema []

/-- A list whose cells have a reference to the next one. -/
def linkedCells : Json.DistinctObject where
  entries :=
    [("Cell", .obj
      [("type", .str "object"),
        ("properties", .obj
          [("next", .obj
            [("$ref", .str "#/components/schemas/Cell"),
              ("description", .str "the next cell")])])])]
  keysApart := by simp [Json.KeysApart, Json.KeysApart.ofEntries, Json.Object.keys]

def firstCell : Json.Distinct where
  value := .obj [("$ref", .str "Cell")]
  keysApart := by simp [Json.KeysApart, Json.KeysApart.ofEntries, Json.Object.keys]

/-- The reference back to the cell is taken away, and the limit is not felt. -/
theorem dereference_linkedCells :
    CallsWithin linkedCells.entries maxSteps ⟨∅, firstCell.value⟩ ∧
      dereference linkedCells.entries firstCell.value =
        inlined linkedCells.entries ∅ firstCell.value ∧
      (expandInPlace linkedCells.entries (maxSteps + 1) firstCell.value).run ∅ =
        (inlined linkedCells.entries ∅ firstCell.value, ∅) ∧
      inlined linkedCells.entries ∅ firstCell.value =
        .obj
          [("type", .str "object"),
            ("properties", .obj [("next", .obj [("description", .str "the next cell")])])] := by
  have hcalls : CallsWithin linkedCells.entries maxSteps ⟨∅, firstCell.value⟩ := by
    decide +kernel
  obtain ⟨-, hlimit, hshared⟩ := dereference_eq_inlined
  have heq := hlimit linkedCells.entries firstCell.value hcalls
  refine ⟨hcalls, heq, hshared linkedCells firstCell hcalls, ?_⟩
  rw [← heq]
  rfl

end Inliner

end ManifestForm.Schema
