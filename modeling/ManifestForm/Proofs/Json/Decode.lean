import ManifestForm.Json.Decode
import ManifestForm.Proofs.Json.Object

/-!
# Decoding objects

What a record reads from an object depends on the values that stand under the names of its fields
and on nothing else. The decoders of its parts are followed one by one, so a value that has been
encoded part by part is decoded part by part.
-/

namespace ManifestForm

namespace Json

/-- An optional entry is found under its own name only. -/
theorem lookup_entry (name k : String) (v? : Option Json) :
    (entry name v?).lookup k = if k = name then v? else none := by
  cases v? with
  | none => exact (ite_self none).symm
  | some v => rw [entry, lookup_cons_eq_ite, List.lookup_nil]

section Heights

/-- An item nests less deep than its array. -/
theorem height_lt_of_mem_items {v : Json} {vs : List Json} (h : v ∈ vs) :
    v.height < (Json.arr vs).height := by
  rw [height.eq_def (.arr vs)]
  dsimp only
  induction vs with
  | nil => cases h
  | cons w vs ih =>
      rw [height.heightAll]
      rcases List.mem_cons.mp h with rfl | hmem
      · omega
      · have hrest := ih hmem
        omega

/-- A value nests less deep than the object that it stands in. -/
theorem height_lt_of_mem_entries {kv : String × Json} {kvs : Object} (h : kv ∈ kvs) :
    kv.2.height < (Json.obj kvs).height := by
  rw [height.eq_def (.obj kvs)]
  dsimp only
  induction kvs with
  | nil => cases h
  | cons entry kvs ih =>
      obtain ⟨k, w⟩ := entry
      rw [height.heightEntries]
      rcases List.mem_cons.mp h with rfl | hmem
      · dsimp only
        omega
      · have hrest := ih hmem
        omega

theorem height_lt_of_lookup {kvs : Object} {name : String} {v : Json}
    (h : kvs.lookup name = some v) : v.height < (Json.obj kvs).height := by
  obtain ⟨front, back, rfl, -⟩ := List.lookup_eq_some_iff.mp h
  have hmem : (name, v) ∈ front ++ (name, v) :: back := by simp
  exact height_lt_of_mem_entries hmem

end Heights

end Json

namespace Decoder

theorem string_eq_ok_iff {v : Json} {text : String} :
    string v = .ok text ↔ v = .str text := by
  cases v <;> simp [string]

/-- What is decoded one by one is decoded as a whole. -/
theorem mapM_map_eq_ok {α β γ ε : Type} {f : β → Except ε γ} {g : α → β} {h : α → γ} {as : List α}
    (hf : ∀ a ∈ as, f (g a) = .ok (h a)) : (as.map g).mapM f = .ok (as.map h) := by
  induction as with
  | nil => rfl
  | cons a as ih =>
      have hrest := ih fun b hb => hf b (List.mem_cons_of_mem a hb)
      rw [List.map_cons, List.mapM_cons, hf a List.mem_cons_self, hrest]
      rfl

/-- A list is decoded if each of its items is. -/
theorem list_of_forall {item : Decoder α} {encode : α → Json} {as : List α}
    (h : ∀ a ∈ as, item (encode a) = .ok a) : list item (.arr (as.map encode)) = .ok as := by
  rw [list, mapM_map_eq_ok h, List.map_id']

/-- A dictionary is decoded if each of its values is, and the keys may be any. -/
theorem dictionary_of_forall {value : Decoder α} {encode : α → Json} {kvs : List (String × α)}
    (h : ∀ kv ∈ kvs, value (encode kv.2) = .ok kv.2) :
    dictionary value (.obj (kvs.map fun (k, a) => (k, encode a))) = .ok kvs := by
  have hentries : ∀ kv ∈ kvs,
      ((value (encode kv.2)).map fun a => (kv.1, a)) = .ok (kv.1, kv.2) := by
    intro kv hkv
    rw [h kv hkv]
    rfl
  exact (mapM_map_eq_ok hentries).trans (congrArg Except.ok (List.map_id' kvs))

theorem optional_of_ne_null {some? : Decoder α} {v : Json} (h : v ≠ .null) :
    optional some? v = (some? v).map some := by
  cases v with
  | null => exact absurd rfl h
  | _ => rfl

/-- Of two decoders the second one is used where the first one fails. -/
theorem oneOf_pair_eq_ok_iff {name : String} {first second : Decoder α} {v : Json} {a : α} :
    oneOf name [first, second] v = .ok a ↔
      first v = .ok a ∨ (∃ e, first v = .error e) ∧ second v = .ok a := by
  rw [oneOf]
  cases hfirst : first v with
  | ok b => simp [hfirst, Except.toOption]
  | error e =>
      cases hsecond : second v with
      | ok b => simp [hfirst, hsecond, Except.toOption]
      | error e' => simp [hfirst, hsecond, Except.toOption]

end Decoder

section Records

namespace Layout

/-- The position of an entry comes with the value that is found under its name. -/
theorem map_position? (name : String) (i : Nat) (kvs : Json.Object) :
    (position? name i kvs).map Prod.snd = kvs.lookup name := by
  induction kvs generalizing i with
  | nil => rfl
  | cons kv kvs ih =>
      obtain ⟨k, v⟩ := kv
      rw [position?, lookup_cons_eq_ite]
      by_cases hk : k = name
      · rw [if_pos hk, if_pos hk.symm, Option.map_some]
      · rw [if_neg hk, if_neg (Ne.symm hk), ih]

/-- A field without an entry is not found. -/
theorem find?_entries_eq_none {kvs : Json.Object} {name : String} (h : kvs.lookup name = none)
    (place : Nat) : (entries kvs).find? name place = none := by
  rw [← map_position? name 0, Option.map_eq_none_iff] at h
  exact h

theorem find?_entries_eq_some {kvs : Json.Object} {name : String} {v : Json}
    (h : kvs.lookup name = some v) (place : Nat) :
    ∃ i, (entries kvs).find? name place = some (i, v) := by
  rw [← map_position? name 0, Option.map_eq_some_iff] at h
  obtain ⟨⟨i, w⟩, hposition, rfl⟩ := h
  exact ⟨i, hposition⟩

end Layout

namespace Record

/-- Wherever the record starts among the fields of an object, it is read as a value. -/
def Gives (r : Record α) (kvs : Json.Object) (a : α) : Prop :=
  ∀ place, r.read place (.entries kvs) = .ok a

variable {kvs : Json.Object}

/-- A field that may be missing gives what was encoded for it, or nothing. -/
theorem gives_optional {name : String} {decoder : Decoder α} {encode : α → Json} {a? : Option α}
    (hlookup : kvs.lookup name = a?.map encode)
    (hdecode : ∀ a, a? = some a → encode a ≠ .null ∧ decoder (encode a) = .ok a) :
    Gives (optional name decoder) kvs a? := by
  intro place
  cases a? with
  | none => simp only [optional, withDefault, Layout.find?_entries_eq_none hlookup]
  | some a =>
      obtain ⟨hnull, ha⟩ := hdecode a rfl
      obtain ⟨i, hfind⟩ := Layout.find?_entries_eq_some hlookup place
      simp only [optional, withDefault, hfind, present, Decoder.optional_of_ne_null hnull, ha,
        Except.map]

/-- The fields of a record are read one after the other from the same entries. -/
theorem Gives.seq {f : Record (α → β)} {r : Record α} {g : α → β} {a : α} (hf : Gives f kvs g)
    (ha : Gives r kvs a) : Gives (f <*> r) kvs (g a) := by
  intro place
  change (both f r).read place (.entries kvs) = .ok (g a)
  simp only [both, hf place, ha (place + f.fields)]

theorem Gives.map {r : Record α} {a : α} (ha : Gives r kvs a) (g : α → β) :
    Gives (g <$> r) kvs (g a) :=
  have hpure : Gives (Record.pure g) kvs g := fun _ => rfl
  hpure.seq ha

theorem Gives.decoder {r : Record α} {a : α} (h : Gives r kvs a) (name : String) :
    r.decoder name (.obj kvs) = .ok a := by
  simp only [Record.decoder, h 0]

/-- A record of a single field reads just that field. -/
theorem decoder_required_eq_ok_iff {record name : String} {decoder : Decoder α} {a : α} :
    (required name decoder).decoder record (.obj kvs) = .ok a ↔
      ∃ v, kvs.lookup name = some v ∧ decoder v = .ok a := by
  cases hlookup : kvs.lookup name with
  | none =>
      simp [Record.decoder, required, Layout.find?_entries_eq_none hlookup]
  | some v =>
      obtain ⟨i, hfind⟩ := Layout.find?_entries_eq_some hlookup 0
      cases hv : decoder v with
      | ok b => simp [Record.decoder, required, present, hfind, hv]
      | error e => simp [Record.decoder, required, present, hfind, hv]

end Record

end Records

end ManifestForm
