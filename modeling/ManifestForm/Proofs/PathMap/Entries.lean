import ManifestForm.PathMap.Query

/-!
# Entries as least places

Each path has one entry, whose location has the least offset of all that were recorded under it.
Resolving a fragment lowers the entries of all paths that stand in it.
-/

namespace ManifestForm.PathMap

namespace Entries

/-- The paths that are recorded, in the order in which they came. -/
def paths (es : Entries) : List Path := es.map Prod.fst

@[simp] theorem paths_nil : paths [] = [] := rfl

@[simp] theorem paths_cons (p : Path) (l : Location) (es : Entries) :
    paths ((p, l) :: es) = p :: paths es := rfl

theorem mem_paths_of_mem {es : Entries} {p : Path} {l : Location} (h : (p, l) ∈ es) :
    p ∈ es.paths :=
  List.mem_map.mpr ⟨(p, l), h, rfl⟩

/-- The entries hold one location for each path with a place, and no place of that path has a
lesser offset. -/
structure Least (place : Path → Location → Prop) (es : Entries) : Prop where
  nodup : es.paths.Nodup
  least : ∀ p l, (p, l) ∈ es → place p l ∧ ∀ l', place p l' → l.offset ≤ l'.offset
  recorded : ∀ p l, place p l → p ∈ es.paths

/-- Places that are the same ones have the same least offsets. -/
theorem Least.congr {place place' : Path → Location → Prop} {es : Entries}
    (h : es.Least place) (hp : ∀ p l, place p l ↔ place' p l) : es.Least place' := by
  have heq : place = place' := funext fun p => funext fun l => propext (hp p l)
  exact heq ▸ h

/-- What is found under a path is recorded under it. -/
theorem mem_of_lookup {es : Entries} {p : Path} {l : Location} (h : es.lookup p = some l) :
    (p, l) ∈ es := by
  obtain ⟨before, behind, heq, -⟩ := List.lookup_eq_some_iff.mp h
  simp [heq]

/-- Every recorded path is found. -/
theorem exists_lookup_of_mem_paths {es : Entries} {p : Path} (h : p ∈ es.paths) :
    ∃ l, es.lookup p = some l := by
  obtain ⟨⟨p, l⟩, he, rfl⟩ := List.mem_map.mp h
  exact Option.isSome_iff_exists.mp (List.lookup_isSome_iff.mpr ⟨(p, l), he, beq_self_eq_true p⟩)

/-- The paths that are recorded are those that have a place. -/
theorem Least.mem_paths_iff {place : Path → Location → Prop} {es : Entries}
    (h : es.Least place) (p : Path) : p ∈ es.paths ↔ ∃ l, place p l := by
  constructor
  · intro hp
    obtain ⟨l, hl⟩ := exists_lookup_of_mem_paths hp
    exact ⟨l, (h.least p l (mem_of_lookup hl)).1⟩
  · rintro ⟨l, hl⟩
    exact h.recorded p l hl

/-- One entry is least for its one place. -/
theorem least_singleton (p : Path) (l : Location) :
    Least (fun q m => q = p ∧ m = l) [(p, l)] where
  nodup := by simp
  least := by
    intro q m hm
    obtain ⟨rfl, rfl⟩ : q = p ∧ m = l := by simpa using hm
    exact ⟨⟨rfl, rfl⟩, fun l' hl' => hl'.2 ▸ Nat.le_refl _⟩
  recorded := by
    rintro q m ⟨rfl, rfl⟩
    simp

/-- A path that is lowered keeps its position in the order, or comes last. -/
theorem paths_lower (p : Path) (l : Location) (es : Entries) :
    (es.lower p l).paths = if p ∈ es.paths then es.paths else es.paths ++ [p] := by
  induction es with
  | nil => simp [lower]
  | cons e es ih =>
      obtain ⟨q, m⟩ := e
      by_cases hq : q = p
      · simp [lower, hq]
      · simp only [lower, if_neg hq, paths_cons, ih, List.mem_cons, Ne.symm hq, false_or]
        split <;> simp

/-- Lowering a path records it and keeps the others. -/
theorem mem_paths_lower (p q : Path) (l : Location) (es : Entries) :
    q ∈ (es.lower p l).paths ↔ q = p ∨ q ∈ es.paths := by
  rw [paths_lower]
  split
  · next hp => exact ⟨Or.inr, fun h => h.elim (fun heq => heq ▸ hp) id⟩
  · rw [List.mem_append, List.mem_singleton, or_comm]

/-- No path is recorded twice. -/
theorem nodup_lower (p : Path) (l : Location) {es : Entries} (h : es.paths.Nodup) :
    (es.lower p l).paths.Nodup := by
  rw [paths_lower]
  split
  · exact h
  · next hp =>
      refine List.nodup_append.mpr ⟨h, by simp, fun q hq r hr => ?_⟩
      rw [List.mem_singleton.mp hr]
      exact ne_of_mem_of_not_mem hq hp

/-- The entry of another path is one from before, and the entry of the lowered path is the lesser of
the two locations, or the new one if there was none. -/
theorem mem_lower {p q : Path} {l m : Location} {es : Entries} (h : es.paths.Nodup)
    (hm : (q, m) ∈ es.lower p l) :
    (q ≠ p ∧ (q, m) ∈ es) ∨
      (q = p ∧ p ∉ es.paths ∧ m = l) ∨
      (q = p ∧ ∃ old, (p, old) ∈ es ∧ m = if l.offset < old.offset then l else old) := by
  induction es with
  | nil =>
      obtain ⟨rfl, rfl⟩ : q = p ∧ m = l := by simpa [lower] using hm
      exact Or.inr (Or.inl ⟨rfl, by simp, rfl⟩)
  | cons e es ih =>
      obtain ⟨r, old⟩ := e
      rw [paths_cons, List.nodup_cons] at h
      by_cases hr : r = p
      · subst hr
        simp only [lower, if_pos, List.mem_cons, Prod.mk.injEq] at hm
        rcases hm with ⟨rfl, rfl⟩ | hm
        · exact Or.inr (Or.inr ⟨rfl, old, by simp, rfl⟩)
        · refine Or.inl ⟨?_, List.mem_cons_of_mem _ hm⟩
          rintro rfl
          exact h.1 (mem_paths_of_mem hm)
      · simp only [lower, if_neg hr, List.mem_cons, Prod.mk.injEq] at hm
        rcases hm with ⟨rfl, rfl⟩ | hm
        · exact Or.inl ⟨hr, by simp⟩
        · rcases ih h.2 hm with ⟨hq, hmem⟩ | ⟨hq, hnew, hl⟩ | ⟨hq, prior, hmem, hl⟩
          · exact Or.inl ⟨hq, List.mem_cons_of_mem _ hmem⟩
          · exact Or.inr (Or.inl ⟨hq, by simpa [Ne.symm hr] using hnew, hl⟩)
          · exact Or.inr (Or.inr ⟨hq, prior, List.mem_cons_of_mem _ hmem, hl⟩)

/-- Lowering an entry adds one place to those that the entries are the least of. -/
theorem Least.lower {place : Path → Location → Prop} {es : Entries} (h : es.Least place)
    (p : Path) (l : Location) :
    (es.lower p l).Least fun q m => place q m ∨ (q = p ∧ m = l) where
  nodup := nodup_lower p l h.nodup
  least := by
    intro q m hm
    rcases mem_lower h.nodup hm with ⟨hq, hmem⟩ | ⟨rfl, hnew, rfl⟩ | ⟨rfl, old, hmem, rfl⟩
    · obtain ⟨hplace, hleast⟩ := h.least q m hmem
      exact ⟨Or.inl hplace, fun l' hl' => hl'.elim (hleast l') fun heq => absurd heq.1 hq⟩
    · refine ⟨Or.inr ⟨rfl, rfl⟩, fun l' hl' => ?_⟩
      rcases hl' with hl' | ⟨-, rfl⟩
      · exact absurd (h.recorded q l' hl') hnew
      · exact Nat.le_refl _
    · obtain ⟨hplace, hleast⟩ := h.least q old hmem
      by_cases hlt : l.offset < old.offset
      · rw [if_pos hlt]
        refine ⟨Or.inr ⟨rfl, rfl⟩, fun l' hl' => ?_⟩
        rcases hl' with hl' | ⟨-, rfl⟩
        · exact Nat.le_trans (Nat.le_of_lt hlt) (hleast l' hl')
        · exact Nat.le_refl _
      · rw [if_neg hlt]
        refine ⟨Or.inl hplace, fun l' hl' => ?_⟩
        rcases hl' with hl' | ⟨-, rfl⟩
        · exact hleast l' hl'
        · exact Nat.not_lt.mp hlt
  recorded := by
    intro q m hm
    rw [mem_paths_lower]
    rcases hm with hm | ⟨rfl, -⟩
    · exact Or.inr (h.recorded q m hm)
    · exact Or.inl rfl

/-- Lowers the entries of several places in turn. -/
def lowerAll (ps : List (Path × Location)) (es : Entries) : Entries :=
  ps.foldl (fun es e => es.lower e.1 e.2) es

@[simp] theorem lowerAll_nil (es : Entries) : es.lowerAll [] = es := rfl

@[simp] theorem lowerAll_cons (e : Path × Location) (ps : List (Path × Location)) (es : Entries) :
    es.lowerAll (e :: ps) = (es.lower e.1 e.2).lowerAll ps := rfl

/-- Places may be lowered in two portions. -/
theorem lowerAll_append (ps qs : List (Path × Location)) (es : Entries) :
    es.lowerAll (ps ++ qs) = (es.lowerAll ps).lowerAll qs := List.foldl_append

/-- What is recorded already keeps its order, and what is new comes behind it. -/
theorem paths_prefix_lower (p : Path) (l : Location) (es : Entries) :
    es.paths <+: (es.lower p l).paths := by
  rw [paths_lower]
  split
  · exact List.prefix_rfl
  · exact List.prefix_append _ _

/-- Any number of places only adds paths at the end. -/
theorem paths_prefix_lowerAll (ps : List (Path × Location)) (es : Entries) :
    es.paths <+: (es.lowerAll ps).paths := by
  induction ps generalizing es with
  | nil => exact List.prefix_rfl
  | cons e ps ih => exact (paths_prefix_lower e.1 e.2 es).trans (ih _)

theorem mem_paths_lowerAll {ps : List (Path × Location)} {es : Entries} {q : Path}
    (h : q ∈ es.paths) : q ∈ (es.lowerAll ps).paths :=
  (paths_prefix_lowerAll ps es).subset h

/-- After any number of places the offsets are least for all of them. -/
theorem Least.lowerAll {place : Path → Location → Prop} {es : Entries} (h : es.Least place)
    (ps : List (Path × Location)) :
    (es.lowerAll ps).Least fun q m => place q m ∨ (q, m) ∈ ps := by
  induction ps generalizing place es with
  | nil => exact h.congr fun p l => by simp
  | cons e ps ih =>
      refine (ih (h.lower e.1 e.2)).congr fun p l => ?_
      rw [List.mem_cons, or_assoc, Prod.ext_iff]

end Entries

namespace Fragment

/-- All that stands in a fragment, with the paths from where the fragment itself stands at `p`. -/
def places (p : Path) : Fragment → List (Path × Location)
  | .mk _ l children => (p, l) :: placesAll p children
where
  placesAll (p : Path) : List Fragment → List (Path × Location)
    | [] => []
    | .mk q l cs :: rest => places (p ++ q) (.mk q l cs) ++ placesAll p rest

@[simp] theorem withPath_path (p : Path) (f : Fragment) : (f.withPath p).path = p := by
  cases f; rfl

@[simp] theorem withPath_location (p : Path) (f : Fragment) :
    (f.withPath p).location = f.location := by
  cases f; rfl

@[simp] theorem withPath_children (p : Path) (f : Fragment) :
    (f.withPath p).children = f.children := by
  cases f; rfl

/-- A fragment has its own place and those of its children. -/
theorem places_eq (p : Path) (f : Fragment) :
    f.places p = (p, f.location) :: places.placesAll p f.children := by
  cases f; rw [places]; rfl

/-- Each child adds its own step to the path. -/
theorem placesAll_eq_flatMap (p : Path) (fs : List Fragment) :
    places.placesAll p fs = fs.flatMap fun f => f.places (p ++ f.path) := by
  induction fs with
  | nil => rfl
  | cons f fs ih =>
      obtain ⟨q, l, cs⟩ := f
      rw [places.placesAll, ih]
      rfl

/-- The path of a fragment itself plays no part in its places. -/
theorem places_withPath (p q : Path) (f : Fragment) : (f.withPath q).places p = f.places p := by
  rw [places_eq, places_eq, withPath_location, withPath_children]

end Fragment

namespace Entries

mutual
/-- The first segment stands for the root, and no entry has it. -/
theorem resolve_eq_lowerAll (root : String) (p : Path) (es : Entries) :
    (f : Fragment) → es.resolve (root :: p) f = es.lowerAll (f.places p)
  | .mk q l children => by
      rw [Entries.resolve, Fragment.places, lowerAll_cons, List.drop_one, List.tail_cons,
        resolveAll_eq_lowerAll root p (es.lower p l) children]

/-- Children that are resolved one after the other lower all their places. -/
theorem resolveAll_eq_lowerAll (root : String) (p : Path) (es : Entries) :
    (fs : List Fragment) →
      resolve.resolveAll (root :: p) es fs = es.lowerAll (Fragment.places.placesAll p fs)
  | [] => by rw [resolve.resolveAll, Fragment.places.placesAll, lowerAll_nil]
  | .mk q l cs :: rest => by
      rw [resolve.resolveAll, Fragment.places.placesAll, lowerAll_append, List.cons_append,
        resolve_eq_lowerAll root (p ++ q) es (.mk q l cs),
        resolveAll_eq_lowerAll root p _ rest]
end

end Entries

end ManifestForm.PathMap
