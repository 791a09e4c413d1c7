import ManifestForm.PathMap.Query
import ManifestForm.Proofs.PathMap.Places
import ManifestForm.Proofs.Text.Lines

/-!
# Dotted texts of paths

A segment stands behind a dot or between brackets, and only the first one may
stand alone. Whichever way it is written, a path whose segments hold none of
these marks is read back from the text.
-/

namespace ManifestForm.PathMap

/-- A text that can be told from the marks around it. -/
structure IsSegment (s : String) : Prop where
  ne_empty : s ≠ ""
  no_dot : '.' ∉ s.toList
  no_opening : '[' ∉ s.toList
  no_closing : ']' ∉ s.toList

/-- A text in which every segment of a path has marks of its own. -/
inductive SpellsMarked : Path → String → Prop
  | nil : SpellsMarked [] ""
  | dot (s : String) {p : Path} {rest : String} (hspelled : SpellsMarked p rest) :
      SpellsMarked (s :: p) ("." ++ s ++ rest)
  | brackets (s : String) {p : Path} {rest : String} (hspelled : SpellsMarked p rest) :
      SpellsMarked (s :: p) ("[" ++ s ++ "]" ++ rest)

/-- A dotted text of a path, whose first segment may go without its dot. -/
inductive Spells : Path → String → Prop
  | marked {p : Path} {text : String} (hspelled : SpellsMarked p text) : Spells p text
  | bare (s : String) {p : Path} {rest : String} (hspelled : SpellsMarked p rest) :
      Spells (s :: p) (s ++ rest)

section Segments

/-- A separator keeps what stands before it apart from what stands behind it. -/
theorem segments_append_separator {sep : Char} (hcuts : sep = '.' ∨ sep = '[') (a b : String) :
    segments (a ++ String.singleton sep ++ b) = segments a ++ segments b := by
  have hcut (l rest : List Char) : Text.splitOn (fun c => c = '.' || c = '[') (l ++ sep :: rest) =
      Text.splitOn (fun c => c = '.' || c = '[') l ++
        Text.splitOn (fun c => c = '.' || c = '[') rest :=
    Text.splitOn_append_separator (by simpa using hcuts) l rest
  have hkept : sep ≠ ']' := by rcases hcuts with rfl | rfl <;> decide
  simp [segments, hcut, hkept]

theorem segments_append_dot (a b : String) :
    segments (a ++ "." ++ b) = segments a ++ segments b :=
  segments_append_separator (.inl rfl) a b

theorem segments_append_opening (a b : String) :
    segments (a ++ "[" ++ b) = segments a ++ segments b :=
  segments_append_separator (.inr rfl) a b

theorem segments_append_closing (a b : String) : segments (a ++ "]" ++ b) = segments (a ++ b) := by
  simp [segments]

theorem IsSegment.segments_eq {s : String} (hplain : IsSegment s) : segments s = [s] := by
  have hkept : s.toList.filter (· ≠ ']') = s.toList := by
    rw [List.filter_eq_self]
    intro c hmem
    exact decide_eq_true fun hsame => hplain.no_closing (hsame ▸ hmem)
  have hwhole : ∀ c ∈ s.toList, (c = '.' || c = '[') = false := by
    intro c hmem
    have hnoDot : c ≠ '.' := fun hsame => hplain.no_dot (hsame ▸ hmem)
    have hnoOpening : c ≠ '[' := fun hsame => hplain.no_opening (hsame ▸ hmem)
    simp [hnoDot, hnoOpening]
  rw [segments, hkept, Text.splitOn_eq_singleton hwhole]
  simp [hplain.ne_empty]

end Segments

section Reading

/-- Behind any text the segments of a marked path come after those of the text. -/
theorem SpellsMarked.segments_append {p : Path} {text : String} (hspelled : SpellsMarked p text)
    (hplain : ∀ s ∈ p, IsSegment s) (a : String) : segments (a ++ text) = segments a ++ p := by
  -- A segment is read with what has been written before it, so the text in front grows.
  induction hspelled generalizing a with
  | nil => simp
  | @dot s p rest hspelled ih =>
      obtain ⟨hfirst, hothers⟩ := List.forall_mem_cons.mp hplain
      calc
        segments (a ++ ("." ++ s ++ rest)) = segments (a ++ "." ++ (s ++ rest)) := by
          simp only [String.append_assoc]
        _ = segments a ++ segments (s ++ rest) := segments_append_dot a (s ++ rest)
        _ = segments a ++ s :: p := by
          rw [ih hothers s, hfirst.segments_eq, List.singleton_append]
  | @brackets s p rest hspelled ih =>
      obtain ⟨hfirst, hothers⟩ := List.forall_mem_cons.mp hplain
      calc
        segments (a ++ ("[" ++ s ++ "]" ++ rest)) = segments (a ++ "[" ++ (s ++ "]" ++ rest)) := by
          simp only [String.append_assoc]
        _ = segments a ++ segments (s ++ "]" ++ rest) := segments_append_opening a _
        _ = segments a ++ s :: p := by
          rw [segments_append_closing, ih hothers s, hfirst.segments_eq, List.singleton_append]

theorem Spells.segments_eq {p : Path} {text : String} (hspelled : Spells p text)
    (hplain : ∀ s ∈ p, IsSegment s) : segments text = p := by
  cases hspelled with
  | marked hspelled =>
      have hread := hspelled.segments_append hplain ""
      rwa [String.empty_append] at hread
  | bare s hspelled =>
      obtain ⟨hfirst, hothers⟩ := List.forall_mem_cons.mp hplain
      rw [hspelled.segments_append hothers s, hfirst.segments_eq, List.singleton_append]

/-- A path of plain segments is found by each of its dotted texts as it is found by itself. -/
theorem lookup_of_spells {p : Path} {text : String} (hplain : ∀ s ∈ p, IsSegment s)
    (hspelled : Spells p text) (m : PathMap) : m.lookup text = m.find? p := by
  rw [lookup, hspelled.segments_eq hplain]

/-- A path with a key that is repeated, in a text that mixes both ways of writing. -/
theorem lookup_in_repeatedKeys :
    (∀ s ∈ ["a", "0", "b", "c"], IsSegment s) ∧ Spells ["a", "0", "b", "c"] "a[0].b[c]" ∧
      (empty.recordAll (nodeNotices repeatedKeys)).lookup "a[0].b[c]" = some ⟨3, 7, 16⟩ := by
  have hplain : ∀ s ∈ ["a", "0", "b", "c"], IsSegment s := by
    simp only [List.forall_mem_cons]
    refine ⟨?_, ?_, ?_, ?_, by simp⟩ <;> constructor <;> decide
  have hspelled : Spells ["a", "0", "b", "c"] "a[0].b[c]" :=
    .bare "a" (.brackets "0" (.dot "b" (.brackets "c" .nil)))
  refine ⟨hplain, hspelled, ?_⟩
  rw [lookup_of_spells hplain hspelled]
  decide +kernel

end Reading

end ManifestForm.PathMap
