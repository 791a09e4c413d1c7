import ManifestForm.Proofs.Schema.References
import Mathlib.Data.Finset.Basic

/-!
# Inlining in place

A walk with one set of open components for all its branches. A component enters the set before it is
expanded and leaves it afterwards, and an object is rewritten keyword by keyword, each expansion
being inserted where the old value stood. Every branch leaves the set as it found it, so the walk
gives what inlining gives with a set of its own for each branch.
-/

namespace ManifestForm.Schema

/-- The keywords with schemas below them, in the order in which they are rewritten. -/
def keywords : List String :=
  ["allOf", "anyOf", "oneOf", "properties", "items", "not", "additionalProperties"]

theorem nodup_keywords : keywords.Nodup := by decide

/-- Applies an action to the schemas in an entry of a schema, one after the other. -/
def mapEntryM {m : Type → Type} [Monad m] (f : Json → m Json) (key : String) (v : Json) : m Json :=
  match v with
  | .arr members =>
    if isComposition key then return .arr (← members.mapM f)
    else return v
  | .obj properties =>
    if key = "properties" then
      return .obj (← properties.mapM fun (name, p) => return (name, ← f p))
    else if isSubschema key then f v
    else return v
  | v => return v

/-- Puts the expansion of a keyword where its value stands. -/
def rewriteKeyword {m : Type → Type} [Monad m] (f : Json → m Json) (kvs : Json.Object)
    (key : String) : m Json.Object :=
  match kvs.lookup key with
  | none => return kvs
  | some v => return kvs.insert key (← mapEntryM f key v)

/-- Expands a schema with so many steps left. The state holds the components being expanded. -/
def expandInPlace (components : Json.Object) : Nat → Json → StateM (Finset String) Json
  | 0, v => return stripReference v
  | steps + 1, v =>
    match reference? v with
    | some text => do
      let name := componentName text
      if name ∈ (← get) then return stripReference v
      match components.lookup name with
      | none => return stripReference v
      | some target =>
        modify (insert name)
        let expanded ← expandInPlace components steps target
        modify (·.erase name)
        return expanded
    | none =>
      match v with
      | .obj kvs =>
        return .obj (← keywords.foldlM (rewriteKeyword (expandInPlace components steps)) kvs)
      | v => return v

section Restores

variable {σ α β : Type} {s : σ}

/-- From this state the action gives the value and leaves the state as it was. -/
def Restores (x : StateM σ α) (s : σ) (a : α) : Prop := x.run s = (a, s)

theorem restores_pure (a : α) : Restores (pure a : StateM σ α) s a := rfl

theorem Restores.bind {x : StateM σ α} {f : α → StateM σ β} {a : α} {b : β} (hx : Restores x s a)
    (hf : Restores (f a) s b) : Restores (x >>= f) s b := by
  have hrun : (x >>= f).run s = (f (x.run s).1).run (x.run s).2 := rfl
  rw [Restores, hrun, hx]
  exact hf

theorem Restores.mapM {f : α → StateM σ β} {g : α → β} {l : List α}
    (h : ∀ a ∈ l, Restores (f a) s (g a)) : Restores (l.mapM f) s (l.map g) := by
  induction l with
  | nil =>
      rw [List.mapM_nil]
      exact restores_pure []
  | cons a l ih =>
      obtain ⟨ha, hl⟩ := List.forall_mem_cons.mp h
      rw [List.mapM_cons]
      apply Restores.bind ha
      apply Restores.bind (ih hl)
      exact restores_pure _

end Restores

/-- The schemas in an entry of a schema. -/
def entrySchemas (key : String) : Json → List Json
  | .arr members => if isComposition key then members else []
  | .obj properties =>
    if key = "properties" then properties.map (·.2)
    else if isSubschema key then [.obj properties]
    else []
  | _ => []

theorem mapEntry_of_not_mem_keywords {key : String} (h : key ∉ keywords) (f : Json → Json)
    (v : Json) : mapEntry f key v = v := by
  have hkeys : isComposition key = false ∧ key ≠ "properties" ∧ isSubschema key = false := by
    simp only [keywords, List.mem_cons, List.not_mem_nil, or_false, not_or] at h
    simp [isComposition, isSubschema, h]
  cases v with
  | arr members => simp [mapEntry, hkeys]
  | obj properties => simp [mapEntry, hkeys]
  | _ => rfl

section Keywords

variable {σ : Type} {s : σ} {F : Json → StateM σ Json} {f : Json → Json}

theorem restores_mapEntryM {key : String} {v : Json}
    (h : ∀ u ∈ entrySchemas key v, Restores (F u) s (f u)) :
    Restores (mapEntryM F key v) s (mapEntry f key v) := by
  cases v with
  | arr members =>
      rw [mapEntryM, mapEntry]
      by_cases hkey : isComposition key = true
      · rw [entrySchemas, if_pos hkey] at h
        rw [if_pos hkey, if_pos hkey]
        apply Restores.bind (Restores.mapM h)
        exact restores_pure _
      · rw [if_neg hkey, if_neg hkey]
        exact restores_pure _
  | obj properties =>
      rw [mapEntryM, mapEntry]
      by_cases hkey : key = "properties"
      · rw [entrySchemas, if_pos hkey] at h
        rw [if_pos hkey, if_pos hkey]
        refine Restores.bind (Restores.mapM ?_) (restores_pure _)
        intro p hp
        apply Restores.bind (h p.2 (List.mem_map_of_mem hp))
        exact restores_pure _
      · rw [if_neg hkey, if_neg hkey]
        by_cases hsub : isSubschema key = true
        · rw [entrySchemas, if_neg hkey, if_pos hsub] at h
          rw [if_pos hsub, if_pos hsub]
          exact h _ (List.mem_singleton_self _)
        · rw [if_neg hsub, if_neg hsub]
          exact restores_pure _
  | _ => exact restores_pure _

theorem restores_rewriteKeyword {kvs : Json.Object} (hkvs : (Json.Object.keys kvs).Nodup)
    {key : String}
    (h : ∀ v, kvs.lookup key = some v → Restores (mapEntryM F key v) s (mapEntry f key v)) :
    Restores (rewriteKeyword F kvs key) s
      (kvs.map fun (k, v) => (k, if k = key then mapEntry f key v else v)) := by
  rw [rewriteKeyword]
  cases hv : kvs.lookup key with
  | none =>
      have hkey : key ∉ Json.Object.keys kvs := by
        intro hmem
        obtain ⟨kv, hkv, rfl⟩ := List.mem_map.mp hmem
        exact absurd rfl (bne_iff_ne.mp (List.lookup_eq_none_iff.mp hv kv hkv))
      rw [Json.Object.map_values_of_not_mem hkey]
      exact restores_pure kvs
  | some v =>
      rw [← Json.Object.insert_eq_map_values hkvs hv]
      apply Restores.bind (h v hv)
      exact restores_pure _

/-- The entry of one keyword is mapped before those of the others. -/
theorem map_entries_cons {key : String} {keys : List String} (hkey : key ∉ keys)
    (kvs : Json.Object) :
    (kvs.map fun (k, v) => (k, if k ∈ key :: keys then mapEntry f k v else v)) =
      (kvs.map fun (k, v) => (k, if k = key then mapEntry f key v else v)).map
        fun (k, v) => (k, if k ∈ keys then mapEntry f k v else v) := by
  rw [List.map_map]
  apply List.map_congr_left
  rintro ⟨k, v⟩ -
  by_cases heq : k = key
  · subst heq
    simp [hkey]
  · simp [heq]

/-- Rewriting one keyword after the other maps the entries of these keywords where they stand. -/
theorem restores_foldlM_rewriteKeyword {keys : List String} (hkeys : keys.Nodup)
    {kvs : Json.Object} (hkvs : (Json.Object.keys kvs).Nodup)
    (h : ∀ key ∈ keys, ∀ v, kvs.lookup key = some v →
      Restores (mapEntryM F key v) s (mapEntry f key v)) :
    Restores (keys.foldlM (rewriteKeyword F) kvs) s
      (kvs.map fun (k, v) => (k, if k ∈ keys then mapEntry f k v else v)) := by
  induction keys generalizing kvs with
  | nil => simpa using restores_pure kvs
  | cons key keys ih =>
      obtain ⟨hkey, hrest⟩ := List.nodup_cons.mp hkeys
      rw [List.foldlM_cons]
      apply Restores.bind (restores_rewriteKeyword hkvs (h key List.mem_cons_self))
      rw [map_entries_cons hkey]
      apply ih hrest
      · rw [Json.Object.keys_map_values fun k v => if k = key then mapEntry f key v else v]
        exact hkvs
      · -- The entries of the keywords that follow are still the old ones.
        intro k hk v hv
        have hne : k ≠ key := fun heq => hkey (heq ▸ hk)
        rw [Json.Object.lookup_map_values fun k v => if k = key then mapEntry f key v else v] at hv
        exact h k (List.mem_cons_of_mem key hk) v (by simpa [hne] using hv)

/-- All keywords rewritten, each entry has its schemas mapped. -/
theorem restores_keywords {kvs : Json.Object} (hkvs : (Json.Object.keys kvs).Nodup)
    (h : ∀ key v, kvs.lookup key = some v → ∀ u ∈ entrySchemas key v, Restores (F u) s (f u)) :
    Restores (keywords.foldlM (rewriteKeyword F) kvs) s
      (kvs.map fun (k, v) => (k, mapEntry f k v)) := by
  have hmap : (kvs.map fun (k, v) => (k, mapEntry f k v)) =
      kvs.map fun (k, v) => (k, if k ∈ keywords then mapEntry f k v else v) := by
    apply List.map_congr_left
    rintro ⟨k, v⟩ -
    by_cases hk : k ∈ keywords
    · simp only [if_pos hk]
    · simp only [if_neg hk, mapEntry_of_not_mem_keywords hk]
  rw [hmap]
  apply restores_foldlM_rewriteKeyword nodup_keywords hkvs
  intro key _ v hv
  exact restores_mapEntryM (h key v hv)

end Keywords

section Walk

variable {components : Json.Object} {steps : Nat} {node : Json}

theorem keysApart_of_mem_entrySchemas {key : String} {v u : Json} (h : v.KeysApart)
    (hu : u ∈ entrySchemas key v) : u.KeysApart := by
  cases v with
  | arr members =>
      rw [entrySchemas] at hu
      split at hu
      · exact Json.keysApart_arr_iff.mp h u hu
      · cases hu
  | obj properties =>
      rw [entrySchemas] at hu
      split at hu
      · obtain ⟨p, hp, rfl⟩ := List.mem_map.mp hu
        exact (Json.keysApart_obj_iff.mp h).2 p hp
      · split at hu
        · obtain rfl := List.mem_singleton.mp hu
          exact h
        · cases hu
  | _ => cases hu

theorem exists_of_mem_entrySchemas {kvs : Json.Object} (hkvs : (Json.obj kvs).KeysApart)
    {key : String} {v u : Json} (hv : kvs.lookup key = some v) (hu : u ∈ entrySchemas key v) :
    ∃ w : Json.Distinct, w.value = u :=
  ⟨⟨u, keysApart_of_mem_entrySchemas (hkvs.of_lookup hv) hu⟩, rfl⟩

theorem run_expandInPlace_of_some {text : String} (href : reference? node = some text)
    (opened : Finset String) :
    (expandInPlace components (steps + 1) node).run opened =
      if componentName text ∈ opened then (stripReference node, opened)
      else
        match components.lookup (componentName text) with
        | none => (stripReference node, opened)
        | some target =>
          let opened := insert (componentName text) opened
          let result := (expandInPlace components steps target).run opened
          (result.1, result.2.erase (componentName text)) := by
  rw [expandInPlace.eq_def]
  dsimp only
  rw [href]
  by_cases hopened : componentName text ∈ opened
  · rw [if_pos hopened]
    change StateT.run (if componentName text ∈ opened then _ else _) opened = _
    rw [if_pos hopened]
    rfl
  · rw [if_neg hopened]
    change StateT.run (if componentName text ∈ opened then _ else _) opened = _
    rw [if_neg hopened]
    cases components.lookup (componentName text) <;> rfl

section Steps

variable {components : Json.DistinctObject} {steps : Nat}

/-- A component is open only while it is expanded. -/
theorem restores_of_reference {node : Json} {text : String} (href : reference? node = some text)
    {opened : List String}
    (hbelow : ∀ target : Json.Distinct,
      Restores (expandInPlace components.entries steps target.value)
        (componentName text :: opened).toFinset
        (expand components.entries steps (componentName text :: opened) target.value)) :
    Restores (expandInPlace components.entries (steps + 1) node) opened.toFinset
      (expand components.entries (steps + 1) opened node) := by
  rw [Restores, run_expandInPlace_of_some href]
  have hname : componentName text ∈ opened.toFinset ↔ componentName text ∈ opened :=
    List.mem_toFinset
  by_cases hopened : componentName text ∈ opened
  · have hcut : expand components.entries (steps + 1) opened node = stripReference node :=
      expand_of_isCut (.circular href hopened)
    rw [if_pos (hname.mpr hopened), hcut]
  · rw [if_neg (mt hname.mp hopened)]
    cases htarget : components.entries.lookup (componentName text) with
    | none =>
        have hcut : expand components.entries (steps + 1) opened node = stripReference node :=
          expand_of_isCut (.unknown href htarget)
        rw [hcut]
    | some target =>
        obtain ⟨target, rfl⟩ := components.exists_of_lookup htarget
        have hbelow := hbelow target
        rw [List.toFinset_cons, Restores] at hbelow
        rw [expand_of_target href hopened htarget]
        dsimp only
        rw [hbelow]
        dsimp only
        rw [Finset.erase_insert (mt hname.mp hopened)]

/-- Without a reference the open components stay the same throughout. -/
theorem restores_of_no_reference {node : Json.Distinct} (href : reference? node.value = none)
    {opened : List String}
    (hbelow : ∀ child : Json.Distinct,
      Restores (expandInPlace components.entries steps child.value) opened.toFinset
        (expand components.entries steps opened child.value)) :
    Restores (expandInPlace components.entries (steps + 1) node.value) opened.toFinset
      (expand components.entries (steps + 1) opened node.value) := by
  obtain ⟨node, hnode⟩ := node
  rw [expandInPlace.eq_def]
  dsimp only at href ⊢
  rw [href]
  cases node with
  | obj kvs =>
      have hkeys := (Json.keysApart_obj_iff.mp hnode).1
      rw [expand_obj href]
      dsimp only
      refine Restores.bind (restores_keywords hkeys ?_) (restores_pure _)
      intro key v hv u hu
      obtain ⟨u, rfl⟩ := exists_of_mem_entrySchemas hnode hv hu
      exact hbelow u
  | _ =>
      rw [expand_of_object?_eq_none rfl]
      exact restores_pure _

end Steps

/-- The walk in place gives what inlining gives, and leaves the set of open components as it was. -/
theorem restores_expandInPlace (components : Json.DistinctObject) {steps : Nat}
    (node : Json.Distinct) (opened : List String) :
    Restores (expandInPlace components.entries steps node.value) opened.toFinset
      (expand components.entries steps opened node.value) := by
  induction steps generalizing opened node with
  | zero => exact restores_pure _
  | succ steps ih =>
      cases href : reference? node.value with
      | some text => exact restores_of_reference href fun target => ih target _
      | none => exact restores_of_no_reference href fun child => ih child opened

end Walk

end ManifestForm.Schema
