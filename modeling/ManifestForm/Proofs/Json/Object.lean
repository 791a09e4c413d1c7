import ManifestForm.Json.Basic
import Mathlib.Data.List.Induction

/-!
# Objects under insertion and erasure

An object that gathers pairs has each of their keys once, where it stood first, with the value that
came last. There is one such object, and inserting the pairs one after the other makes it. Erasure
moves an entry, which is not seen by looking keys up as long as no key comes twice.
-/

namespace ManifestForm

theorem lookup_cons_eq_ite {κ β : Type} [BEq κ] [LawfulBEq κ] [DecidableEq κ]
    (entries : List (κ × β)) (k name : κ) (v : β) :
    List.lookup k ((name, v) :: entries) = if k = name then some v else entries.lookup k := by
  by_cases h : k = name
  · rw [h, List.lookup_cons_self, if_pos rfl]
  · rw [List.lookup_cons, beq_false_of_ne h, if_neg h]

namespace Json

theorem string?_eq_some_iff {v : Json} {s : String} : v.string? = some s ↔ v = .str s := by
  cases v <;> simp [string?]

namespace Object

/-- An inserted value is found under its name, and all else as before. -/
theorem lookup_insert (o : Object) (k name : String) (v : Json) :
    List.lookup k (insert o name v) = if k = name then some v else o.lookup k := by
  induction o with
  | nil => rw [insert, lookup_cons_eq_ite]
  | cons kv o ih =>
      obtain ⟨key, value⟩ := kv
      rw [insert]
      by_cases hkey : key = name
      · subst hkey
        rw [if_pos rfl, lookup_cons_eq_ite, lookup_cons_eq_ite]
        split <;> rfl
      · rw [if_neg hkey, lookup_cons_eq_ite, lookup_cons_eq_ite, ih]
        by_cases h : k = key
        · rw [if_pos h, if_neg (h ▸ hkey), if_pos h]
        · rw [if_neg h, if_neg h]

/-- A name that is new comes last, and another one changes no key. -/
theorem keys_insert (o : Object) (name : String) (v : Json) :
    keys (insert o name v) = if name ∈ keys o then keys o else keys o ++ [name] := by
  induction o with
  | nil => rfl
  | cons kv o ih =>
      obtain ⟨key, value⟩ := kv
      rw [insert]
      by_cases hkey : key = name
      · simp [keys, hkey]
      · rw [if_neg hkey]
        change key :: keys (insert o name v) = if name ∈ key :: keys o then _ else key :: _ ++ _
        rw [ih]
        by_cases hmem : name ∈ keys o
        · rw [if_pos hmem, if_pos (List.mem_cons_of_mem key hmem)]
          rfl
        · have hnew : name ∉ key :: keys o := by
            simpa [Ne.symm hkey] using hmem
          rw [if_neg hmem, if_neg hnew]
          rfl

/-- The object has each key of the pairs once, in the order in which they came first, and each key
has the value that came last. -/
structure Gathers (kvs : List (String × Json)) (o : Object) : Prop where
  keys_eq : keys o = (kvs.map Prod.fst).eraseDups
  lookup_eq : ∀ k, o.lookup k = kvs.reverse.lookup k

theorem eraseDups_concat (ks : List String) (k : String) :
    (ks ++ [k]).eraseDups = if k ∈ ks then ks.eraseDups else ks.eraseDups ++ [k] := by
  rw [List.eraseDups_append]
  by_cases h : k ∈ ks
  · simp [List.removeAll, h]
  · simp [List.removeAll, h, List.eraseDups_cons]

theorem gathers_nil : Gathers [] [] where
  keys_eq := rfl
  lookup_eq := fun _ => rfl

/-- A pair more is gathered by inserting it. -/
theorem Gathers.insert {kvs : List (String × Json)} {o : Object} (h : Gathers kvs o) (k : String)
    (v : Json) : Gathers (kvs ++ [(k, v)]) (insert o k v) where
  keys_eq := by
    rw [keys_insert, List.map_append, List.map_singleton, eraseDups_concat, h.keys_eq]
    simp only [List.mem_eraseDups]
  lookup_eq := by
    intro name
    rw [lookup_insert, List.reverse_append, List.reverse_singleton, List.singleton_append,
      lookup_cons_eq_ite, h.lookup_eq]

/-- Pairs inserted one after the other are gathered. -/
theorem Gathers.insertAll {kvs : List (String × Json)} {o : Object} (h : Gathers kvs o)
    (more : List (String × Json)) :
    Gathers (kvs ++ more) (more.foldl (fun o kv => Object.insert o kv.1 kv.2) o) := by
  induction more generalizing kvs o with
  | nil => simpa using h
  | cons kv more ih =>
      have hrest := ih (h.insert kv.1 kv.2)
      rwa [List.append_assoc, List.singleton_append] at hrest

/-- The object that is made of pairs gathers them. -/
theorem gathers_ofList (kvs : List (String × Json)) : Gathers kvs (ofList kvs) :=
  gathers_nil.insertAll kvs

theorem nodup_eraseDups (ks : List String) : ks.eraseDups.Nodup := by
  induction ks using List.reverseRecOn with
  | nil => simp
  | append_singleton ks k ih =>
      rw [eraseDups_concat]
      split
      · exact ih
      · next h =>
          refine List.nodup_append.mpr ⟨ih, List.pairwise_singleton _ k, ?_⟩
          intro a ha b hb hab
          rw [List.mem_singleton] at hb
          exact h (hb ▸ hab ▸ List.mem_eraseDups.mp ha)

/-- An object that gathers pairs has no key twice. -/
theorem Gathers.nodup {kvs : List (String × Json)} {o : Object} (h : Gathers kvs o) :
    (keys o).Nodup := by
  rw [h.keys_eq]
  exact nodup_eraseDups _

theorem lookup_eq_none_of_not_mem {o : Object} {k : String} (h : k ∉ keys o) :
    o.lookup k = none := by
  rw [List.lookup_eq_none_iff]
  intro kv hkv
  rw [bne_iff_ne]
  rintro rfl
  exact h (List.mem_map_of_mem hkv)

/-- Objects with the same keys in the same order and the same values are equal. -/
theorem eq_of_keys_of_lookup {o o' : Object} (hnodup : (keys o).Nodup) (hkeys : keys o = keys o')
    (hlookup : ∀ k, o.lookup k = o'.lookup k) : o = o' := by
  induction o generalizing o' with
  | nil => exact (List.map_eq_nil_iff.mp hkeys.symm).symm
  | cons kv o ih =>
      obtain ⟨k, v⟩ := kv
      cases o' with
      | nil => cases hkeys
      | cons kv' o' =>
          obtain ⟨k', v'⟩ := kv'
          obtain ⟨rfl, hrest⟩ : k = k' ∧ keys o = keys o' := List.cons.inj hkeys
          have hk : k ∉ keys o := (List.nodup_cons.mp hnodup).1
          have hv : v = v' := by simpa using hlookup k
          have ho : o = o' := by
            refine ih (List.nodup_cons.mp hnodup).2 hrest fun name => ?_
            by_cases hn : name = k
            · subst hn
              rw [lookup_eq_none_of_not_mem hk, lookup_eq_none_of_not_mem (hrest ▸ hk)]
            · have h := hlookup name
              rwa [lookup_cons_eq_ite, lookup_cons_eq_ite, if_neg hn, if_neg hn] at h
          rw [hv, ho]

/-- The pairs decide the object. -/
theorem Gathers.unique {kvs : List (String × Json)} {o o' : Object} (h : Gathers kvs o)
    (h' : Gathers kvs o') : o = o' := by
  apply eq_of_keys_of_lookup h.nodup
  · rw [h.keys_eq, h'.keys_eq]
  · intro k
    rw [h.lookup_eq, h'.lookup_eq]

/-- What is found under a key came with it in a pair. -/
theorem Gathers.mem_of_lookup {kvs : List (String × Json)} {o : Object} (h : Gathers kvs o)
    {k : String} {v : Json} (hk : o.lookup k = some v) : (k, v) ∈ kvs := by
  rw [h.lookup_eq] at hk
  obtain ⟨front, back, heq, -⟩ := List.lookup_eq_some_iff.mp hk
  have hmem : (k, v) ∈ kvs.reverse := by simp [heq]
  exact List.mem_reverse.mp hmem

theorem lookup_of_mem {o : Object} (h : (keys o).Nodup) {k : String} {v : Json}
    (hk : (k, v) ∈ o) : o.lookup k = some v := by
  obtain ⟨front, back, rfl⟩ := List.append_of_mem hk
  refine List.lookup_eq_some_iff.mpr ⟨front, back, rfl, ?_⟩
  intro kv hkv
  rw [bne_iff_ne]
  rw [keys, List.map_append, List.nodup_append] at h
  exact (h.2.2 kv.1 (List.mem_map_of_mem hkv) k (by simp)).symm

/-- No pair comes from elsewhere. -/
theorem Gathers.mem_of_mem {kvs : List (String × Json)} {o : Object} (h : Gathers kvs o)
    {kv : String × Json} (hkv : kv ∈ o) : kv ∈ kvs :=
  h.mem_of_lookup (lookup_of_mem h.nodup hkv)

/-- Where no key comes twice, no pair is lost. -/
theorem Gathers.lookup_of_mem {kvs : List (String × Json)} {o : Object} (h : Gathers kvs o)
    (hnodup : (kvs.map Prod.fst).Nodup) {k : String} {v : Json} (hk : (k, v) ∈ kvs) :
    o.lookup k = some v := by
  have hreverse : (keys kvs.reverse).Nodup :=
    ((List.reverse_perm kvs).map Prod.fst).nodup_iff.mpr hnodup
  rw [h.lookup_eq]
  exact Object.lookup_of_mem hreverse (List.mem_reverse.mpr hk)

/-- A change of the values is seen under every name. -/
theorem lookup_map_values (f : String → Json → Json) (o : Object) (name : String) :
    List.lookup name (o.map fun (k, v) => (k, f k v)) = (o.lookup name).map (f name) := by
  induction o with
  | nil => rfl
  | cons kv o ih =>
      obtain ⟨k, v⟩ := kv
      rw [List.map_cons, lookup_cons_eq_ite, lookup_cons_eq_ite, ih]
      by_cases h : name = k
      · rw [if_pos h, if_pos h, h, Option.map_some]
      · rw [if_neg h, if_neg h]

theorem keys_map_values (f : String → Json → Json) (o : Object) :
    keys (o.map fun (k, v) => (k, f k v)) = keys o := by
  rw [keys, List.map_map]
  rfl

theorem map_values_of_not_mem {o : Object} {key : String} (h : key ∉ keys o) (g : Json → Json) :
    (o.map fun (k, v) => (k, if k = key then g v else v)) = o := by
  rw [List.map_congr_left (g := id), List.map_id]
  intro kv hkv
  have hne : kv.1 ≠ key := fun heq => h (heq ▸ List.mem_map_of_mem hkv)
  simp [hne]

/-- A value inserted for one that is there takes its place. -/
theorem insert_eq_map_values {o : Object} (h : (keys o).Nodup) {key : String} {v : Json}
    (hv : o.lookup key = some v) (g : Json → Json) :
    insert o key (g v) = o.map fun (k, w) => (k, if k = key then g w else w) := by
  induction o with
  | nil => cases hv
  | cons kv o ih =>
      obtain ⟨k, w⟩ := kv
      obtain ⟨hk, ho⟩ : k ∉ keys o ∧ (keys o).Nodup := List.nodup_cons.mp h
      rw [lookup_cons_eq_ite] at hv
      rw [insert, List.map_cons]
      dsimp only
      by_cases hkey : k = key
      · subst hkey
        obtain rfl : w = v := by simpa using hv
        rw [if_pos rfl, if_pos rfl, map_values_of_not_mem hk]
      · rw [if_neg (Ne.symm hkey)] at hv
        rw [if_neg hkey, if_neg hkey, ih ho hv]

section Erasure

/-- The last entry is found as well when it stands first. -/
theorem lookup_rotate {o : Object} {last : String × Json} (h : (keys (o ++ [last])).Nodup)
    (name : String) : List.lookup name (last :: o) = (o ++ [last]).lookup name := by
  obtain ⟨k, v⟩ := last
  rw [List.lookup_append, lookup_cons_eq_ite, lookup_cons_eq_ite]
  by_cases hname : name = k
  · subst hname
    have hmem : name ∉ keys o := by
      rw [keys, List.map_append, List.nodup_append] at h
      intro hname
      exact h.2.2 name hname name (by simp) rfl
    rw [lookup_eq_none_of_not_mem hmem, if_pos rfl, if_pos rfl, Option.none_or]
  · rw [if_neg hname, if_neg hname, List.lookup_nil, Option.or_none]

/-- The last entry takes the place of the first one and all others stay. -/
theorem lookup_swapErase_head {o : Object} (h : (keys o).Nodup) (key k : String) (v : Json) :
    (swapErase key ((key, v) :: o)).lookup k = o.lookup k := by
  rw [swapErase, if_pos rfl]
  cases hlast : o.getLast? with
  | none => rw [List.getLast?_eq_none_iff.mp hlast]
  | some last =>
      obtain ⟨front, rfl⟩ := List.getLast?_eq_some_iff.mp hlast
      rw [List.dropLast_concat]
      exact lookup_rotate h k

/-- Of an object with distinct keys, erasure takes one entry and leaves the others to be found. -/
theorem lookup_swapErase {o : Object} (h : (keys o).Nodup) (name k : String) :
    (swapErase name o).lookup k = if k = name then none else o.lookup k := by
  induction o with
  | nil => simp [swapErase]
  | cons kv o ih =>
      obtain ⟨key, v⟩ := kv
      obtain ⟨hkey, ho⟩ : key ∉ keys o ∧ (keys o).Nodup := List.nodup_cons.mp h
      by_cases hname : key = name
      · subst hname
        rw [lookup_swapErase_head ho, lookup_cons_eq_ite]
        by_cases hk : k = key
        · rw [if_pos hk, hk, lookup_eq_none_of_not_mem hkey]
        · rw [if_neg hk, if_neg hk]
      · rw [swapErase, if_neg hname, lookup_cons_eq_ite, lookup_cons_eq_ite, ih ho]
        by_cases hk : k = key
        · rw [if_pos hk, if_neg (hk ▸ hname), if_pos hk]
        · rw [if_neg hk, if_neg hk]

end Erasure

end Object

section DistinctKeys

/-- No object in the value has a key twice. -/
def KeysApart : Json → Prop
  | .arr items => ofItems items
  | .obj kvs => (Object.keys kvs).Nodup ∧ ofEntries kvs
  | _ => True
where
  ofItems : List Json → Prop
    | [] => True
    | v :: vs => KeysApart v ∧ ofItems vs
  ofEntries : List (String × Json) → Prop
    | [] => True
    | (_, v) :: kvs => KeysApart v ∧ ofEntries kvs

theorem keysApart_arr_iff {items : List Json} :
    (Json.arr items).KeysApart ↔ ∀ v ∈ items, v.KeysApart := by
  rw [KeysApart]
  induction items with
  | nil => simp [KeysApart.ofItems]
  | cons v vs ih => rw [KeysApart.ofItems, ih, List.forall_mem_cons]

/-- In an object it is a matter of its keys and of the values under them. -/
theorem keysApart_obj_iff {kvs : Object} :
    (Json.obj kvs).KeysApart ↔ (Object.keys kvs).Nodup ∧ ∀ kv ∈ kvs, kv.2.KeysApart := by
  have hentries : KeysApart.ofEntries kvs ↔ ∀ kv ∈ kvs, kv.2.KeysApart := by
    induction kvs with
    | nil => simp [KeysApart.ofEntries]
    | cons kv kvs ih =>
        obtain ⟨k, v⟩ := kv
        rw [KeysApart.ofEntries, ih, List.forall_mem_cons]
  rw [KeysApart, hentries]

/-- What is found in an object has no key twice if the object has none. -/
theorem KeysApart.of_lookup {kvs : Object} (h : (Json.obj kvs).KeysApart) {name : String} {v : Json}
    (hv : kvs.lookup name = some v) : v.KeysApart := by
  obtain ⟨front, back, rfl, -⟩ := List.lookup_eq_some_iff.mp hv
  exact (keysApart_obj_iff.mp h).2 (name, v) (by simp)

theorem KeysApart.of_get? {v w : Json} (h : v.KeysApart) {name : String}
    (hw : v.get? name = some w) : w.KeysApart := by
  cases v with
  | obj kvs => exact h.of_lookup hw
  | null => cases hw
  | bool b => cases hw
  | num n => cases hw
  | str t => cases hw
  | arr items => cases hw

/-- A value in which no object has a key twice. Values that are parsed are of this kind. -/
structure Distinct where
  value : Json
  keysApart : value.KeysApart

/-- The entries of an object in which, and below which, no key comes twice. -/
structure DistinctObject where
  entries : Object
  keysApart : (Json.obj entries).KeysApart

/-- A value found in such an object is of the same kind. -/
theorem DistinctObject.exists_of_lookup (o : DistinctObject) {name : String} {v : Json}
    (hv : o.entries.lookup name = some v) : ∃ w : Distinct, w.value = v :=
  ⟨⟨v, o.keysApart.of_lookup hv⟩, rfl⟩

end DistinctKeys

end Json

end ManifestForm
