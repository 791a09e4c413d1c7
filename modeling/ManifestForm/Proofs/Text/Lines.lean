import ManifestForm.Text.Basic
import Mathlib.Data.List.TakeWhile

/-!
# Lines and blank texts

Texts that are written with a line feed behind each are read back as lines, if
none of them holds a line feed or ends in a carriage return.
-/

namespace ManifestForm.Text

theorem splitOn_ne_nil {α : Type} (isSeparator : α → Bool) (l : List α) :
    splitOn isSeparator l ≠ [] := by
  cases l with
  | nil => simp [splitOn]
  | cons a l =>
      rw [splitOn]
      split
      · simp
      · split_ifs <;> simp

/-- A separator cuts the text before it off from the text behind it. -/
theorem splitOn_append_separator {α : Type} {isSeparator : α → Bool} {sep : α}
    (hcuts : isSeparator sep) (l rest : List α) :
    splitOn isSeparator (l ++ sep :: rest) = splitOn isSeparator l ++ splitOn isSeparator rest := by
  induction l with
  | nil =>
      obtain ⟨next, pieces, hcut⟩ := List.exists_cons_of_ne_nil (splitOn_ne_nil isSeparator rest)
      simp [splitOn, hcut, hcuts]
  | cons a l ih =>
      obtain ⟨first, pieces, hcut⟩ := List.exists_cons_of_ne_nil (splitOn_ne_nil isSeparator l)
      rw [List.cons_append, splitOn, splitOn, ih, hcut]
      simp only [List.cons_append]
      split_ifs <;> rfl

theorem splitOn_eq_singleton {α : Type} {isSeparator : α → Bool} {piece : List α}
    (hwhole : ∀ a ∈ piece, isSeparator a = false) : splitOn isSeparator piece = [piece] := by
  induction piece with
  | nil => rfl
  | cons a piece ih =>
      obtain ⟨hfirst, hothers⟩ := List.forall_mem_cons.mp hwhole
      simp [splitOn, ih hothers, hfirst]

/-- A piece without separators ends at the first one. -/
theorem splitOn_append_cons {α : Type} {isSeparator : α → Bool} {piece : List α} {sep : α}
    (hwhole : ∀ a ∈ piece, isSeparator a = false) (hends : isSeparator sep) (rest : List α) :
    splitOn isSeparator (piece ++ sep :: rest) = piece :: splitOn isSeparator rest := by
  rw [splitOn_append_separator hends, splitOn_eq_singleton hwhole, List.singleton_append]

theorem ended_append_nil (pieces : List (List UInt8)) :
    ended (pieces ++ [[]]) = pieces.map dropReturn := by
  induction pieces with
  | nil => rfl
  | cons piece pieces ih =>
      cases pieces with
      | nil => rfl
      | cons next pieces => exact congrArg (dropReturn piece :: ·) ih

/-- Lines that hold no line feed and end in no carriage return are read as they were written. -/
theorem lines_of_ended {written : List (List UInt8)} (hsingle : ∀ line ∈ written, lineFeed ∉ line)
    (hnoReturn : ∀ line ∈ written, line.getLast? ≠ some carriageReturn) :
    lines (written.flatMap (· ++ [lineFeed])) = written := by
  have hcut : splitOn (· = lineFeed) (written.flatMap (· ++ [lineFeed])) = written ++ [[]] := by
    clear hnoReturn
    induction written with
    | nil => rfl
    | cons line written ih =>
        obtain ⟨hfirst, hothers⟩ := List.forall_mem_cons.mp hsingle
        rw [List.flatMap_cons, List.append_assoc, List.singleton_append, splitOn_append_cons,
          ih hothers, List.cons_append]
        · intro octet hmem
          exact decide_eq_false fun hsame => hfirst (hsame ▸ hmem)
        · rfl
  have hkept : ∀ line ∈ written, dropReturn line = line := by
    intro line hmem
    exact if_neg (hnoReturn line hmem)
  calc
    lines (written.flatMap (· ++ [lineFeed])) = written.map dropReturn := by
      rw [lines, hcut, ended_append_nil]
    _ = written.map id := List.map_congr_left hkept
    _ = written := List.map_id written

/-- Trimming leaves nothing of a blank text, and of no other one. -/
theorem trim_eq_nil_iff {cs : List Char} : trim cs = [] ↔ ∀ c ∈ cs, isBlank c := by
  have hnothingLeft : trim cs = [] ↔ ∀ c ∈ cs.dropWhile isBlank, isBlank c := by
    simp [trim, trimEnd, trimStart, List.dropWhile_eq_nil_iff]
  rw [hnothingLeft]
  constructor
  · intro hrest c hmem
    rw [← List.takeWhile_append_dropWhile (p := isBlank) (l := cs)] at hmem
    rcases List.mem_append.mp hmem with hmem | hmem
    · exact List.mem_takeWhile_imp hmem
    · exact hrest c hmem
  · intro hall c hmem
    exact hall c ((List.dropWhile_sublist isBlank).subset hmem)

end ManifestForm.Text
