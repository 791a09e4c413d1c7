import ManifestForm.Proofs.PathMap.Fragments
import Mathlib.Data.List.Nodup

/-!
# The places of a document's paths

`Occurs` says which paths a tree has below its root and where they stand. A key stands for its
entry, a collection with something in it for the entry whose value it is, and an item for its
number. The map of a tree records just these paths and the root, each at the least offset of its
places.
-/

namespace ManifestForm.PathMap

open Yaml (Node)

/-- A path below a node and a place of it. -/
inductive Occurs : Node Location → Path → Location → Prop
  | key {start stop : Location} {anchor : Option Nat}
      {entries : List (Node Location × Node Location)} {k v : Node Location} {text : String}
      (he : (k, v) ∈ entries) (hk : k.text? = some text) :
      Occurs (.mapping start anchor entries stop) [text] k.pos
  | value {start stop : Location} {anchor : Option Nat}
      {entries : List (Node Location × Node Location)} {k v : Node Location} {text : String}
      (he : (k, v) ∈ entries) (hk : k.text? = some text) (hv : v.isFilled = true) :
      Occurs (.mapping start anchor entries stop) [text] v.pos
  | inValue {start stop : Location} {anchor : Option Nat}
      {entries : List (Node Location × Node Location)} {k v : Node Location} {text : String}
      {p : Path} {l : Location} (he : (k, v) ∈ entries) (hk : k.text? = some text)
      (h : Occurs v p l) : Occurs (.mapping start anchor entries stop) (text :: p) l
  | item {start stop : Location} {anchor : Option Nat} {items : List (Node Location)} {i : Nat}
      {n : Node Location} (hi : items[i]? = some n) :
      Occurs (.sequence start anchor items stop) [toString i] n.pos
  | inItem {start stop : Location} {anchor : Option Nat} {items : List (Node Location)} {i : Nat}
      {n : Node Location} {p : Path} {l : Location} (hi : items[i]? = some n)
      (h : Occurs n p l) : Occurs (.sequence start anchor items stop) (toString i :: p) l

/-- A path of a document and a place of it: the root, the text of a document that is nothing else,
and what stands below the root. -/
inductive Stands (n : Node Location) : Path → Location → Prop
  | root : Stands n [] n.pos
  | text {text : String} (h : n.text? = some text) : Stands n [text] n.pos
  | below {p : Path} {l : Location} (h : Occurs n p l) : Stands n p l

theorem Occurs.text_eq_none {n : Node Location} {p : Path} {l : Location} (h : Occurs n p l) :
    n.text? = none := by
  cases h <;> rfl

/-- The root is no path below the node. -/
theorem Occurs.path_ne_nil {n : Node Location} {p : Path} {l : Location} (h : Occurs n p l) :
    p ≠ [] := by
  cases h <;> simp

theorem Occurs.isFilled {n : Node Location} {p : Path} {l : Location} (h : Occurs n p l) :
    n.isFilled = true := by
  cases h with
  | key he => simpa [Node.isFilled] using List.ne_nil_of_mem he
  | value he => simpa [Node.isFilled] using List.ne_nil_of_mem he
  | inValue he => simpa [Node.isFilled] using List.ne_nil_of_mem he
  | item hi => simpa [Node.isFilled] using List.ne_nil_of_mem (List.mem_of_getElem? hi)
  | inItem hi => simpa [Node.isFilled] using List.ne_nil_of_mem (List.mem_of_getElem? hi)

section Items

/-- Fragments at different offsets all count. -/
theorem distinctOffsets_eq_self {seen : List Nat} {fs : List Fragment}
    (hseen : ∀ f ∈ fs, f.location.offset ∉ seen)
    (hfs : (fs.map fun f => f.location.offset).Nodup) : distinctOffsets seen fs = fs := by
  induction fs generalizing seen with
  | nil => rfl
  | cons f fs ih =>
      rw [List.map_cons, List.nodup_cons] at hfs
      have hf : seen.contains f.location.offset = false := by
        simpa using hseen f (by simp)
      have hrest : ∀ g ∈ fs, g.location.offset ∉ f.location.offset :: seen := by
        intro g hg hmem
        rcases List.mem_cons.mp hmem with heq | hmem
        · exact hfs.1 (heq ▸ List.mem_map_of_mem hg)
        · exact hseen g (List.mem_cons_of_mem _ hg) hmem
      rw [distinctOffsets, hf, ih hrest hfs.2]
      rfl

theorem mem_of_mem_distinctOffsets {seen : List Nat} {fs : List Fragment} {f : Fragment}
    (h : f ∈ distinctOffsets seen fs) : f ∈ fs := by
  induction fs generalizing seen with
  | nil => exact h
  | cons g fs ih =>
      rw [distinctOffsets] at h
      split at h
      · exact List.mem_cons_of_mem g (ih h)
      · rcases List.mem_cons.mp h with rfl | h
        · exact List.mem_cons_self
        · exact List.mem_cons_of_mem g (ih h)

/-- The numbers count down to the last fragment. -/
theorem mem_numbered_iff {fs : List Fragment} {name : String} {f : Fragment} :
    (name, f) ∈ numbered fs ↔ ∃ i : Nat, fs.reverse[i]? = some f ∧ name = toString i := by
  induction fs with
  | nil => simp [numbered]
  | cons g fs ih =>
      rw [numbered, List.mem_cons, ih, List.reverse_cons]
      constructor
      · rintro (heq | ⟨i, hi, rfl⟩)
        · obtain ⟨rfl, rfl⟩ := Prod.mk.inj heq
          exact ⟨fs.length, by simp, rfl⟩
        · refine ⟨i, ?_, rfl⟩
          rw [List.getElem?_append_left (List.getElem?_eq_some_iff.mp hi).1, hi]
      · rintro ⟨i, hi, rfl⟩
        by_cases hlt : i < fs.reverse.length
        · rw [List.getElem?_append_left hlt] at hi
          exact Or.inr ⟨i, hi, rfl⟩
        · rw [List.getElem?_append_right (Nat.not_lt.mp hlt), List.getElem?_singleton] at hi
          split at hi
          · next h0 =>
              have hlen : i = fs.length := by
                rw [List.length_reverse] at hlt h0
                omega
              exact Or.inl (by rw [hlen, Option.some.inj hi])
          · cases hi

/-- An item is recorded under the last text before it. -/
theorem getElem?_ofItems (path : Path) (s : String) (ns : List (Node Location)) (i : Nat) :
    (fragment.ofItems path s ns)[i]? =
      ns[i]?.map (fragment path (lastText.ofItems s (ns.take i))) := by
  induction ns generalizing s i with
  | nil => rfl
  | cons n ns ih =>
      cases i with
      | zero => rfl
      | succ i =>
          rw [fragment.ofItems, List.getElem?_cons_succ, ih, List.getElem?_cons_succ,
            List.take_succ_cons, lastText.ofItems]

theorem map_offset_ofItems (path : Path) (s : String) (ns : List (Node Location)) :
    (fragment.ofItems path s ns).map (fun f => f.location.offset) =
      ns.map fun n => n.pos.offset := by
  induction ns generalizing s with
  | nil => rfl
  | cons n ns ih => rw [fragment.ofItems, List.map_cons, ih, List.map_cons, fragment_location]

/-- Items at different offsets are all kept and numbered in the order of the text. -/
theorem mem_itemParts_iff {path : Path} {s : String} {ns : List (Node Location)}
    (hns : (ns.map fun n => n.pos.offset).Nodup) {e : Path × Path × Fragment} :
    e ∈ itemParts path (fragment.ofItems path s ns) ↔
      ∃ (i : Nat) (n : Node Location), ns[i]? = some n ∧
        e = (path ++ [toString i], [toString i],
          fragment path (lastText.ofItems s (ns.take i)) n) := by
  have hnodup : ((fragment.ofItems path s ns).reverse.map fun f => f.location.offset).Nodup := by
    rw [List.map_reverse, map_offset_ofItems]
    exact List.nodup_reverse.mpr hns
  rw [itemParts, distinctOffsets_eq_self (by simp) hnodup, List.mem_map]
  constructor
  · rintro ⟨⟨name, f⟩, hmem, rfl⟩
    obtain ⟨i, hi, rfl⟩ := mem_numbered_iff.mp hmem
    rw [List.reverse_reverse, getElem?_ofItems, Option.map_eq_some_iff] at hi
    obtain ⟨n, hn, rfl⟩ := hi
    exact ⟨i, n, hn, rfl⟩
  · rintro ⟨i, n, hn, rfl⟩
    refine ⟨(toString i, fragment path (lastText.ofItems s (ns.take i)) n), ?_, rfl⟩
    rw [mem_numbered_iff, List.reverse_reverse]
    exact ⟨i, by rw [getElem?_ofItems, hn, Option.map_some], rfl⟩

end Items

section Entries

/-- An even number of fragments in front leaves the turns of keys and values as they are. -/
theorem dropValues_append (isValue : Bool) (fs gs : List Fragment) :
    dropValues isValue (fs ++ gs) =
      dropValues isValue fs ++
        dropValues (if fs.length % 2 = 0 then isValue else !isValue) gs := by
  induction fs generalizing isValue with
  | nil => rfl
  | cons f fs ih =>
      have hturn : (if fs.length % 2 = 0 then !isValue else !!isValue) =
          if (f :: fs).length % 2 = 0 then isValue else !isValue := by
        rw [List.length_cons, Bool.not_not]
        split <;> split <;> first | rfl | omega
      rw [List.cons_append, dropValues, dropValues]
      split
      · rw [ih, hturn]
      · rw [ih, hturn, List.cons_append]

theorem length_ofEntries (path : Path) (s : String) (es : List (Node Location × Node Location)) :
    (fragment.ofEntries path s es).length = 2 * es.length := by
  induction es generalizing s with
  | nil => rfl
  | cons e es ih =>
      obtain ⟨k, v⟩ := e
      rw [fragment.ofEntries, List.length_cons, List.length_cons, ih, List.length_cons]
      omega

/-- Of an entry its key is kept, and its value if there is something in it. -/
theorem dropValues_ofEntries_cons (path : Path) (s : String) (k v : Node Location)
    (es : List (Node Location × Node Location)) :
    dropValues true (fragment.ofEntries path s ((k, v) :: es)).reverse =
      dropValues true (fragment.ofEntries path (lastText (lastText s k) v) es).reverse ++
        ((if (fragment path (lastText s k) v).children.isEmpty then []
          else [fragment path (lastText s k) v]) ++ [fragment path s k]) := by
  have heven : (fragment.ofEntries path (lastText (lastText s k) v) es).reverse.length % 2 = 0 := by
    rw [List.length_reverse, length_ofEntries, Nat.mul_mod_right]
  rw [fragment.ofEntries, List.reverse_cons, List.reverse_cons, List.append_assoc,
    dropValues_append, if_pos heven]
  by_cases hv : (fragment path (lastText s k) v).children.isEmpty
  · simp [dropValues, hv]
  · simp [dropValues, hv]

/-- A fragment has children exactly if there is something in its node. -/
theorem isEmpty_children_fragment (path : Path) (s : String) (n : Node Location) :
    (fragment path s n).children.isEmpty = !n.isFilled := by
  match n with
  | .scalar .. => rfl
  | .alias .. => rfl
  | .sequence _ _ [] _ => rfl
  | .sequence start anchor (n :: ns) stop =>
      obtain ⟨f, fs, hfs⟩ := List.exists_cons_of_ne_nil
        (l := (fragment.ofItems (path ++ [s]) s (n :: ns)).reverse) (by simp [fragment.ofItems])
      simp [fragment, Fragment.children, childrenOf, itemParts, hfs, distinctOffsets, numbered,
        Node.isFilled]
  | .mapping _ _ [] _ => rfl
  | .mapping start anchor ((k, v) :: es) stop =>
      simp [fragment, Fragment.children, childrenOf, entryParts, dropValues_ofEntries_cons,
        Node.isFilled]

theorem fragment_of_text {n : Node Location} {text : String} (h : n.text? = some text)
    (path : Path) (s : String) : fragment path s n = .mk (path ++ [text]) n.pos [] := by
  match n, h with
  | .scalar .., rfl => rfl
  | .alias .., rfl => rfl

/-- A scalar is the last text itself. -/
theorem lastText_of_text {n : Node Location} {text : String} (h : n.text? = some text)
    (s : String) : lastText s n = text := by
  match n, h with
  | .scalar .., rfl => rfl
  | .alias .., rfl => rfl

/-- What a closing mapping keeps of entries whose keys are texts. -/
theorem mem_dropValues_ofEntries_iff {path : Path} {s : String}
    {es : List (Node Location × Node Location)} (hes : ∀ e ∈ es, e.1.text?.isSome = true)
    {f : Fragment} :
    f ∈ dropValues true (fragment.ofEntries path s es).reverse ↔
      ∃ (k v : Node Location) (text : String), (k, v) ∈ es ∧ k.text? = some text ∧
        (f = .mk (path ++ [text]) k.pos [] ∨ (f = fragment path text v ∧ v.isFilled = true)) := by
  induction es generalizing s with
  | nil => simp [fragment.ofEntries, dropValues]
  | cons e es ih =>
      obtain ⟨k, v⟩ := e
      obtain ⟨text, hk⟩ := Option.isSome_iff_exists.mp (hes (k, v) (by simp))
      rw [dropValues_ofEntries_cons, List.mem_append, List.mem_append,
        ih fun e he => hes e (List.mem_cons_of_mem _ he), lastText_of_text hk,
        fragment_of_text hk, isEmpty_children_fragment, List.mem_singleton]
      constructor
      · rintro (⟨k', v', t, hmem, ht, hf⟩ | hf | rfl)
        · exact ⟨k', v', t, List.mem_cons_of_mem _ hmem, ht, hf⟩
        · cases hv : v.isFilled with
          | true =>
              rw [hv] at hf
              exact ⟨k, v, text, by simp, hk, Or.inr ⟨List.mem_singleton.mp hf, hv⟩⟩
          | false =>
              rw [hv] at hf
              cases hf
        · exact ⟨k, v, text, by simp, hk, Or.inl rfl⟩
      · rintro ⟨k', v', t, hmem, ht, hf⟩
        rcases List.mem_cons.mp hmem with heq | hmem
        · obtain ⟨rfl, rfl⟩ := Prod.mk.inj heq
          obtain rfl : text = t := Option.some.inj (hk.symm.trans ht)
          rcases hf with rfl | ⟨rfl, hv⟩
          · exact Or.inr (Or.inr rfl)
          · exact Or.inr (Or.inl (by simp [hv]))
        · exact Or.inl ⟨k', v', t, hmem, ht, hf⟩

theorem fragment_path_of_isFilled {v : Node Location} (hv : v.isFilled = true) (path : Path)
    (s : String) : (fragment path s v).path = path ++ [s] := by
  match v, hv with
  | .sequence .., _ => rfl
  | .mapping .., _ => rfl

/-- Keys and filled values stand one segment below the mapping, at the text of the key. -/
theorem mem_entryParts_iff {path : Path} {s : String} {es : List (Node Location × Node Location)}
    (hes : ∀ e ∈ es, e.1.text?.isSome = true) {e : Path × Path × Fragment} :
    e ∈ entryParts path (fragment.ofEntries path s es) ↔
      ∃ (k v : Node Location) (text : String), (k, v) ∈ es ∧ k.text? = some text ∧
        (e = (path ++ [text], [text], .mk (path ++ [text]) k.pos []) ∨
          (e = (path ++ [text], [text], fragment path text v) ∧ v.isFilled = true)) := by
  rw [entryParts, List.mem_map]
  constructor
  · rintro ⟨f, hf, rfl⟩
    obtain ⟨k, v, text, hkv, hk, rfl | ⟨rfl, hv⟩⟩ := (mem_dropValues_ofEntries_iff hes).mp hf
    · exact ⟨k, v, text, hkv, hk, Or.inl (by simp [Fragment.path])⟩
    · refine ⟨k, v, text, hkv, hk, Or.inr ⟨?_, hv⟩⟩
      rw [fragment_path_of_isFilled hv, List.drop_left]
  · rintro ⟨k, v, text, hkv, hk, rfl | ⟨rfl, hv⟩⟩
    · refine ⟨_, (mem_dropValues_ofEntries_iff hes).mpr ⟨k, v, text, hkv, hk, Or.inl rfl⟩, ?_⟩
      simp [Fragment.path]
    · refine ⟨_, (mem_dropValues_ofEntries_iff hes).mpr
        ⟨k, v, text, hkv, hk, Or.inr ⟨rfl, hv⟩⟩, ?_⟩
      rw [fragment_path_of_isFilled hv, List.drop_left]

end Entries

section Tree

theorem mem_placesAll_childrenOf_iff {parts : List (Path × Path × Fragment)} {p q : Path}
    {l : Location} :
    (q, l) ∈ Fragment.places.placesAll p (childrenOf parts) ↔
      ∃ e ∈ parts, (q, l) ∈ e.2.2.places (p ++ e.2.1) := by
  rw [Fragment.placesAll_eq_flatMap, childrenOf, List.flatMap_map, List.mem_flatMap]
  simp only [Fragment.withPath_path, Fragment.places_withPath]

theorem mem_places_fragment_iff {path : Path} {s : String} {n : Node Location} {p q : Path}
    {l : Location} :
    (q, l) ∈ (fragment path s n).places p ↔
      (q = p ∧ l = n.pos) ∨
        (q, l) ∈ Fragment.places.placesAll p (fragment path s n).children := by
  rw [Fragment.places_eq, List.mem_cons, Prod.mk.injEq, fragment_location]

/-- What stands in the fragment of a node is what occurs below the node. -/
def TellsPlaces (n : Node Location) : Prop :=
  ∀ (path p q : Path) (s : String) (l : Location),
    (q, l) ∈ Fragment.places.placesAll p (fragment path s n).children ↔
      ∃ r, q = p ++ r ∧ Occurs n r l

/-- A sequence tells its places if its items do. -/
theorem tellsPlaces_sequence {start stop : Location} {anchor : Option Nat}
    {items : List (Node Location)} (hnodup : (items.map fun n => n.pos.offset).Nodup)
    (hitems : ∀ n ∈ items, TellsPlaces n) : TellsPlaces (.sequence start anchor items stop) := by
  intro path p q s l
  rw [fragment, Fragment.children, mem_placesAll_childrenOf_iff]
  constructor
  · rintro ⟨e, he, hmem⟩
    obtain ⟨i, n, hi, rfl⟩ := (mem_itemParts_iff hnodup).mp he
    rcases mem_places_fragment_iff.mp hmem with ⟨rfl, rfl⟩ | hbelow
    · exact ⟨[toString i], rfl, .item hi⟩
    · obtain ⟨r, rfl, hr⟩ := (hitems n (List.mem_of_getElem? hi) _ _ _ _ _).mp hbelow
      exact ⟨toString i :: r, by simp, .inItem hi hr⟩
  · rintro ⟨r, rfl, hr⟩
    cases hr with
    | item hi =>
        exact ⟨_, (mem_itemParts_iff hnodup).mpr ⟨_, _, hi, rfl⟩,
          mem_places_fragment_iff.mpr (Or.inl ⟨rfl, rfl⟩)⟩
    | inItem hi h =>
        refine ⟨_, (mem_itemParts_iff hnodup).mpr ⟨_, _, hi, rfl⟩,
          mem_places_fragment_iff.mpr (Or.inr ?_)⟩
        exact (hitems _ (List.mem_of_getElem? hi) _ _ _ _ _).mpr ⟨_, by simp, h⟩

/-- A mapping tells its places if its values do. -/
theorem tellsPlaces_mapping {start stop : Location} {anchor : Option Nat}
    {entries : List (Node Location × Node Location)}
    (htexts : ∀ e ∈ entries, e.1.text?.isSome = true) (hvalues : ∀ e ∈ entries, TellsPlaces e.2) :
    TellsPlaces (.mapping start anchor entries stop) := by
  intro path p q s l
  rw [fragment, Fragment.children, mem_placesAll_childrenOf_iff]
  constructor
  · rintro ⟨e, he, hmem⟩
    obtain ⟨k, v, text, hkv, hk, rfl | ⟨rfl, hv⟩⟩ := (mem_entryParts_iff htexts).mp he
    · obtain ⟨rfl, rfl⟩ : q = p ++ [text] ∧ l = k.pos := by
        simpa [Fragment.places, Fragment.places.placesAll] using hmem
      exact ⟨[text], rfl, .key hkv hk⟩
    · rcases mem_places_fragment_iff.mp hmem with ⟨rfl, rfl⟩ | hbelow
      · exact ⟨[text], rfl, .value hkv hk hv⟩
      · obtain ⟨r, rfl, hr⟩ := (hvalues _ hkv _ _ _ _ _).mp hbelow
        exact ⟨text :: r, by simp, .inValue hkv hk hr⟩
  · rintro ⟨r, rfl, hr⟩
    cases hr with
    | key hkv hk =>
        refine ⟨_, (mem_entryParts_iff htexts).mpr ⟨_, _, _, hkv, hk, Or.inl rfl⟩, ?_⟩
        simp [Fragment.places]
    | value hkv hk hv =>
        exact ⟨_, (mem_entryParts_iff htexts).mpr ⟨_, _, _, hkv, hk, Or.inr ⟨rfl, hv⟩⟩,
          mem_places_fragment_iff.mpr (Or.inl ⟨rfl, rfl⟩)⟩
    | inValue hkv hk h =>
        refine ⟨_, (mem_entryParts_iff htexts).mpr ⟨_, _, _, hkv, hk, Or.inr ⟨rfl, h.isFilled⟩⟩,
          mem_places_fragment_iff.mpr (Or.inr ?_)⟩
        exact (hvalues _ hkv _ _ _ _ _).mpr ⟨_, by simp, h⟩

/-- It is so for every node whose keys are texts and whose items lie apart. -/
theorem tellsPlaces (n : Node Location) (hkeys : n.HasTextKeys) (hapart : n.HasItemsApart) :
    TellsPlaces n := by
  induction n using Node.inductionOn with
  | scalar pos text style tag anchor =>
      refine fun path p q s l => ⟨fun h => absurd h List.not_mem_nil, ?_⟩
      rintro ⟨r, -, h⟩
      cases h
  | link pos anchor =>
      refine fun path p q s l => ⟨fun h => absurd h List.not_mem_nil, ?_⟩
      rintro ⟨r, -, h⟩
      cases h
  | sequence start anchor items stop ih =>
      have hkeys' := Node.hasTextKeys_sequence_iff.mp hkeys
      obtain ⟨hnodup, hapart'⟩ := Node.hasItemsApart_sequence_iff.mp hapart
      exact tellsPlaces_sequence hnodup fun n hn => ih n hn (hkeys' n hn) (hapart' n hn)
  | mapping start anchor entries stop ih =>
      have hkeys' := Node.hasTextKeys_mapping_iff.mp hkeys
      have hapart' := Node.hasItemsApart_mapping_iff.mp hapart
      exact tellsPlaces_mapping (fun e he => (hkeys' e he).1) fun e he =>
        (ih e he).2 (hkeys' e he).2 (hapart' e he).2

/-- The entries of a recorded tree are the least of its places. -/
theorem least_recordAll (n : Node Location) (hkeys : n.HasTextKeys) (hapart : n.HasItemsApart) :
    (empty.recordAll (nodeNotices n)).entries.Least (Stands n) := by
  cases hn : n.text? with
  | some text =>
      rw [recordAll_empty_of_text n hn]
      have hleast : Entries.Least _ [([], n.pos), ([text], n.pos)] :=
        (Entries.least_singleton [] n.pos).lower [text] n.pos
      refine hleast.congr fun p l => ⟨?_, fun h => ?_⟩
      · rintro (⟨rfl, rfl⟩ | ⟨rfl, rfl⟩)
        · exact .root
        · exact .text hn
      · cases h with
        | root => exact Or.inl ⟨rfl, rfl⟩
        | text ht => exact Or.inr ⟨by rw [Option.some.inj (hn.symm.trans ht)], rfl⟩
        | below h => cases hn.symm.trans h.text_eq_none
  | none =>
      rw [recordAll_empty_of_collection n hn]
      refine ((Entries.least_singleton [] n.pos).lowerAll _).congr fun p l => ?_
      rw [tellsPlaces n hkeys hapart]
      constructor
      · rintro (⟨rfl, rfl⟩ | ⟨r, rfl, h⟩)
        · exact .root
        · exact .below h
      · intro h
        cases h with
        | root => exact Or.inl ⟨rfl, rfl⟩
        | text ht => cases hn.symm.trans ht
        | below h => exact Or.inr ⟨p, rfl, h⟩

theorem Stands.eq_pos {n : Node Location} {l : Location} (h : Stands n [] l) : l = n.pos := by
  cases h with
  | root => rfl
  | below h => exact absurd rfl h.path_ne_nil

/-- The map of a tree whose keys are texts and whose items lie apart has one entry for each path
that stands in the tree and no others. The root lies where it opens, and any other path at the least
offset of its places. -/
theorem recordAll_records_least_places (n : Node Location) (hkeys : n.HasTextKeys)
    (hapart : n.HasItemsApart) :
    let es := (empty.recordAll (nodeNotices n)).entries
    es.paths.Nodup ∧ (∀ p, p ∈ es.paths ↔ ∃ l, Stands n p l) ∧
      es.lookup [] = some n.pos ∧
      ∀ p l, es.lookup p = some l → Stands n p l ∧ ∀ l', Stands n p l' → l.offset ≤ l'.offset := by
  intro es
  have hleast : es.Least (Stands n) := least_recordAll n hkeys hapart
  refine ⟨hleast.nodup, hleast.mem_paths_iff, ?_, ?_⟩
  · obtain ⟨l, hl⟩ := Entries.exists_lookup_of_mem_paths ((hleast.mem_paths_iff []).mpr ⟨_, .root⟩)
    have hstands := (hleast.least [] l (Entries.mem_of_lookup hl)).1
    rw [hl, hstands.eq_pos]
  · intro p l hl
    exact hleast.least p l (Entries.mem_of_lookup hl)

/-- A mapping with the key `a` twice: first for a sequence of a mapping and an alias, then for an
empty sequence. The mapping in the sequence has the key `b` twice as well. -/
def repeatedKeys : Node Location :=
  .mapping ⟨0, 0, 0⟩ none
    [(.scalar ⟨0, 0, 0⟩ "a" .plain none none,
      .sequence ⟨1, 0, 3⟩ none
        [.mapping ⟨1, 2, 5⟩ none
          [(.scalar ⟨1, 2, 5⟩ "b" .plain none none, .scalar ⟨1, 5, 8⟩ "1" .plain none none),
            (.scalar ⟨2, 2, 12⟩ "b" .plain none none,
              .mapping ⟨2, 5, 15⟩ none
                [(.scalar ⟨2, 6, 16⟩ "c" .plain none none, .scalar ⟨2, 9, 19⟩ "2" .plain none none)]
                ⟨2, 10, 20⟩)]
          ⟨3, 0, 22⟩,
          .alias ⟨3, 2, 24⟩ 1]
        ⟨4, 0, 27⟩),
      (.scalar ⟨4, 0, 27⟩ "a" .plain none none, .sequence ⟨4, 3, 30⟩ none [] ⟨4, 4, 31⟩)]
    ⟨5, 0, 33⟩

theorem hasTextKeys_repeatedKeys : repeatedKeys.HasTextKeys := by
  simp [repeatedKeys, Node.HasTextKeys, Node.HasTextKeys.ofItems, Node.HasTextKeys.ofEntries,
    Node.text?]

theorem hasItemsApart_repeatedKeys : repeatedKeys.HasItemsApart := by
  simp [repeatedKeys, Node.HasItemsApart, Node.HasItemsApart.ofItems,
    Node.HasItemsApart.ofEntries, Node.pos]

theorem records_repeatedKeys :
    repeatedKeys.HasTextKeys ∧ repeatedKeys.HasItemsApart ∧
      ["a", "0", "b", "c"] ∈ (empty.recordAll (nodeNotices repeatedKeys)).entries.paths := by
  refine ⟨hasTextKeys_repeatedKeys, hasItemsApart_repeatedKeys, ?_⟩
  have hpaths := (recordAll_records_least_places repeatedKeys hasTextKeys_repeatedKeys
    hasItemsApart_repeatedKeys).2.1
  rw [hpaths]
  refine ⟨⟨2, 6, 16⟩, .below (.inValue (List.mem_cons_self ..) rfl ?_)⟩
  refine .inItem (i := 0) rfl (.inValue (List.mem_cons_of_mem _ (List.mem_singleton_self _)) rfl ?_)
  exact .key (List.mem_singleton_self _) rfl

end Tree

end ManifestForm.PathMap
