import ManifestForm.PathMap.Document
import ManifestForm.PathMap.Query
import ManifestForm.Proofs.Text.Utf8

/-!
# The nearest entry to a line or an offset

The line of an offset is the number of line feeds among the bytes below it. A query for a line is
answered with the greatest line that has an entry and does not lie behind it, and among the entries
of that line with the one that was recorded last.
-/

namespace ManifestForm.PathMap

section Lines

/-- The line feeds among the first bytes of a text. -/
def lineFeedsBelow (text : String) (offset : Nat) : Nat :=
  (text.toByteArray.data.toList.take offset).count Text.lineFeed

/-- No other character has the octet of a line feed. -/
theorem count_lineFeed_utf8EncodeChar {c : Char} (h : c ≠ '\n') (n : Nat) :
    ((String.utf8EncodeChar c).take n).count Text.lineFeed = 0 :=
  List.count_eq_zero.mpr fun hmem =>
    h (Utf8.lineFeed_mem_utf8EncodeChar_iff.mp (List.mem_of_mem_take hmem))

/-- A line starts behind a line feed. -/
theorem lt_of_mem_lineStartsFrom {offset start : Nat} {cs : List Char}
    (h : start ∈ lineStartsFrom offset cs) : offset < start := by
  induction cs generalizing offset with
  | nil => simp [lineStartsFrom] at h
  | cons c cs ih =>
      have hsize : 0 < c.utf8Size := c.utf8Size_pos
      rw [lineStartsFrom] at h
      split at h
      · rcases List.mem_cons.mp h with rfl | h
        · omega
        · have hlater := ih h
          omega
      · have hlater := ih h
        omega

theorem takeWhile_lineStartsFrom_of_lt {offset bound : Nat} (cs : List Char) (h : bound ≤ offset) :
    (lineStartsFrom offset cs).takeWhile (· ≤ bound) = [] := by
  cases hcs : lineStartsFrom offset cs with
  | nil => rfl
  | cons start rest =>
      have hmem : start ∈ lineStartsFrom offset cs := by simp [hcs]
      have hstart : offset < start := lt_of_mem_lineStartsFrom hmem
      have hbeyond : ¬ start ≤ bound := by omega
      simp [hbeyond]

/-- Walking through a text, each line feed that has been passed is the end of a line that starts no
later than where the walk stops. -/
theorem length_takeWhile_lineStartsFrom (cs : List Char) (offset below : Nat) :
    ((lineStartsFrom offset cs).takeWhile (· ≤ offset + below)).length =
      ((cs.flatMap String.utf8EncodeChar).take below).count Text.lineFeed := by
  induction cs generalizing offset below with
  | nil => simp [lineStartsFrom]
  | cons c cs ih =>
      have hlength : (String.utf8EncodeChar c).length = c.utf8Size :=
        String.length_utf8EncodeChar c
      rw [List.flatMap_cons, List.take_append, List.count_append, hlength]
      by_cases hpassed : c.utf8Size ≤ below
      · -- The whole character lies below, and the walk goes on behind it.
        have hrest := ih (offset + c.utf8Size) (below - c.utf8Size)
        have hbound : offset + c.utf8Size + (below - c.utf8Size) = offset + below := by omega
        rw [hbound] at hrest
        rw [← hrest, List.take_of_length_le (hlength ▸ hpassed)]
        by_cases hfeed : c = '\n'
        · subst hfeed
          have hstart : offset + ('\n').utf8Size ≤ offset + below := by omega
          have hbytes : (String.utf8EncodeChar '\n').count Text.lineFeed = 1 := by decide
          simp only [lineStartsFrom, if_pos, List.takeWhile_cons, decide_eq_true hstart,
            List.length_cons, hbytes]
          omega
        · have hbytes : (String.utf8EncodeChar c).count Text.lineFeed = 0 :=
            List.count_eq_zero.mpr fun hmem => hfeed (Utf8.lineFeed_mem_utf8EncodeChar_iff.mp hmem)
          simp only [lineStartsFrom, if_neg hfeed, hbytes, Nat.zero_add]
      · -- The walk stops within the character, which no line starts in or behind.
        have hnone : below - c.utf8Size = 0 := by omega
        rw [hnone, List.take_zero, List.count_nil, Nat.add_zero]
        by_cases hfeed : c = '\n'
        · subst hfeed
          have hzero : below = 0 := by
            have hsize : ('\n').utf8Size = 1 := by decide
            omega
          subst hzero
          simp [lineStartsFrom, Char.utf8Size]
        · rw [count_lineFeed_utf8EncodeChar hfeed, lineStartsFrom, if_neg hfeed,
            takeWhile_lineStartsFrom_of_lt cs (by omega), List.length_nil]

theorem toList_data_toByteArray (text : String) :
    text.toByteArray.data.toList = text.toList.flatMap String.utf8EncodeChar := by
  rw [← String.utf8Encode_toList, List.utf8Encode, List.data_toByteArray]

/-- The line of an offset is the number of line feeds before it. -/
theorem lineOf_eq_lineFeedsBelow {text : String} {m : PathMap}
    (h : m.lineStarts = (forText text).lineStarts) (offset : Nat) :
    m.lineOf offset = lineFeedsBelow text offset := by
  have hwalk := length_takeWhile_lineStartsFrom text.toList 0 offset
  rw [Nat.zero_add] at hwalk
  rw [lineOf, h, lineFeedsBelow, toList_data_toByteArray, ← hwalk]
  simp [forText]

/-- The same map with other starts of lines. -/
def withLines (starts : List Nat) (m : PathMap) : PathMap := { m with lineStarts := starts }

theorem closeScalar_withLines (starts : List Nat) (m : PathMap) (text : String) (l : Location) :
    (m.withLines starts).closeScalar text l = (m.closeScalar text l).withLines starts := by
  simp only [closeScalar, withLines]
  by_cases h : m.path.dropLast.isEmpty <;> simp only [h, if_true, if_false, Bool.false_eq_true]

theorem closeWith_withLines (starts : List Nat) (m : PathMap)
    (parts : List (Path × Path × Fragment)) (others : List Fragment) (l : Location) :
    (m.withLines starts).closeWith parts others l =
      (m.closeWith parts others l).withLines starts := by
  simp only [closeWith, withLines]
  by_cases h : m.path.length = 1 <;> simp only [h, if_true, if_false]

/-- What is recorded does not depend on where lines start, and leaves it as it is. -/
theorem record_withLines (starts : List Nat) (m : PathMap) (n : Notice) :
    (m.withLines starts).record n = (m.record n).withLines starts := by
  obtain ⟨phase, kind, location⟩ := n
  cases phase with
  | opening => rfl
  | closing =>
      cases kind with
      | scalar text => exact closeScalar_withLines starts { m with opened := m.opened.drop 1 } _ _
      | mapping => exact closeWith_withLines starts { m with opened := m.opened.drop 1 } _ _ _
      | sequence => exact closeWith_withLines starts { m with opened := m.opened.drop 1 } _ _ _

/-- The line starts play no part in recording. -/
theorem recordAll_withLines (starts : List Nat) (m : PathMap) (ns : List Notice) :
    (m.withLines starts).recordAll ns = (m.recordAll ns).withLines starts := by
  induction ns generalizing m with
  | nil => rfl
  | cons n ns ih =>
      have hstep := record_withLines starts m n
      rw [recordAll, List.foldl_cons, hstep]
      exact ih (m.record n)

theorem recordAll_forText (text : String) (ns : List Notice) :
    (forText text).recordAll ns = (empty.recordAll ns).withLines (forText text).lineStarts :=
  recordAll_withLines (forText text).lineStarts empty ns

end Lines

section Entries

/-- An entry that lies nearest to a line: it does not lie behind it, no entry lies between, and no
entry of its own line was recorded later. -/
def IsNearest (line : Nat) (es : Entries) (e : Path × Location) : Prop :=
  ∃ before after, es = before ++ e :: after ∧ e.2.line ≤ line ∧
    (∀ f ∈ es, f.2.line ≤ line → f.2.line ≤ e.2.line) ∧ ∀ f ∈ after, f.2.line ≠ e.2.line

theorem IsNearest.mem {line : Nat} {es : Entries} {e : Path × Location} (h : IsNearest line es e) :
    e ∈ es := by
  obtain ⟨before, after, rfl, -⟩ := h
  exact List.mem_append_right before List.mem_cons_self

theorem IsNearest.line_le {line : Nat} {es : Entries} {e : Path × Location}
    (h : IsNearest line es e) : e.2.line ≤ line := by
  obtain ⟨before, after, -, hle, -⟩ := h
  exact hle

theorem IsNearest.le_line {line : Nat} {es : Entries} {e f : Path × Location}
    (h : IsNearest line es e) (hf : f ∈ es) (hle : f.2.line ≤ line) : f.2.line ≤ e.2.line := by
  obtain ⟨before, after, -, -, hgreatest, -⟩ := h
  exact hgreatest f hf hle

/-- Only of no entries is there no last one. -/
theorem lastOnGreatestLine_eq_none_iff {es : Entries} : lastOnGreatestLine es = none ↔ es = [] := by
  cases es with
  | nil => simp [lastOnGreatestLine]
  | cons e es =>
      rw [lastOnGreatestLine]
      split
      · simp
      · split <;> simp

/-- No entry is on a greater line, and no later one on the same. -/
theorem exists_of_lastOnGreatestLine {es : Entries} {e : Path × Location}
    (h : lastOnGreatestLine es = some e) :
    ∃ before after, es = before ++ e :: after ∧ (∀ f ∈ before, f.2.line ≤ e.2.line) ∧
      ∀ f ∈ after, f.2.line < e.2.line := by
  induction es generalizing e with
  | nil => cases h
  | cons first es ih =>
      rw [lastOnGreatestLine] at h
      cases hbest : lastOnGreatestLine es with
      | none =>
          obtain rfl : first = e := by simpa [hbest] using h
          exact ⟨[], es, rfl, by simp, by simp [lastOnGreatestLine_eq_none_iff.mp hbest]⟩
      | some best =>
          obtain ⟨before, after, hes, hbefore, hafter⟩ := ih hbest
          simp only [hbest] at h
          split at h
          · next hlt =>
              obtain rfl : first = e := Option.some.inj h
              refine ⟨[], es, rfl, by simp, ?_⟩
              intro f hf
              rw [hes, List.mem_append, List.mem_cons] at hf
              rcases hf with hf | rfl | hf
              · exact Nat.lt_of_le_of_lt (hbefore f hf) hlt
              · exact hlt
              · exact Nat.lt_trans (hafter f hf) hlt
          · next hle =>
              obtain rfl : best = e := Option.some.inj h
              refine ⟨first :: before, after, by rw [hes, List.cons_append], ?_, hafter⟩
              exact List.forall_mem_cons.mpr ⟨Nat.not_lt.mp hle, hbefore⟩

/-- Later entries count if their line is as great as the greatest before them, earlier ones only if
it is greater than all behind them. -/
theorem lastOnGreatestLine_eq_some_iff {es : Entries} {e : Path × Location} :
    lastOnGreatestLine es = some e ↔
      ∃ before after, es = before ++ e :: after ∧ (∀ f ∈ before, f.2.line ≤ e.2.line) ∧
        ∀ f ∈ after, f.2.line < e.2.line := by
  refine ⟨exists_of_lastOnGreatestLine, ?_⟩
  rintro ⟨before, after, rfl, hbefore, hafter⟩
  induction before with
  | nil =>
      rw [List.nil_append, lastOnGreatestLine]
      cases hbest : lastOnGreatestLine after with
      | none => rfl
      | some best =>
          obtain ⟨front, back, rfl, -⟩ := exists_of_lastOnGreatestLine hbest
          have hlt : best.2.line < e.2.line := hafter best (by simp)
          simp only [if_pos hlt]
  | cons first before ih =>
      obtain ⟨hfirst, hbefore⟩ := List.forall_mem_cons.mp hbefore
      rw [List.cons_append, lastOnGreatestLine, ih hbefore]
      simp only [if_neg (Nat.not_lt.mpr hfirst)]

/-- No path is found exactly if all entries are on later lines. -/
theorem pathAtLine_eq_none_iff {m : PathMap} {line : Nat} :
    m.pathAtLine line = none ↔ ∀ e ∈ m.entries, line < e.2.line := by
  rw [pathAtLine, Option.map_eq_none_iff, lastOnGreatestLine_eq_none_iff, List.filter_eq_nil_iff]
  simp

/-- A query is answered with the path of the entry that lies nearest to the line. -/
theorem pathAtLine_eq_some_iff {m : PathMap} {line : Nat} {p : Path} :
    m.pathAtLine line = some p ↔ ∃ l, IsNearest line m.entries (p, l) := by
  rw [pathAtLine, Option.map_eq_some_iff]
  constructor
  · rintro ⟨⟨q, l⟩, hbest, rfl⟩
    obtain ⟨lower, upper, hfilter, hlower, hupper⟩ := lastOnGreatestLine_eq_some_iff.mp hbest
    obtain ⟨front, back, hentries, hfront, hback⟩ := List.filter_eq_append_iff.mp hfilter
    obtain ⟨skipped, after, rfl, -, hline, hafter⟩ := List.filter_eq_cons_iff.mp hback
    refine ⟨l, front ++ skipped, after, by simp [hentries], by simpa using hline, ?_, ?_⟩
    · intro f hf hle
      have hmem : f ∈ m.entries.filter fun e => e.2.line ≤ line :=
        List.mem_filter.mpr ⟨hf, by simpa using hle⟩
      rw [hfilter, List.mem_append, List.mem_cons] at hmem
      rcases hmem with hmem | rfl | hmem
      · exact hlower f hmem
      · exact Nat.le_refl _
      · exact Nat.le_of_lt (hupper f hmem)
    · intro f hf heq
      have hle : f.2.line ≤ line := heq ▸ by simpa using hline
      have hmem : f ∈ upper := hafter ▸ List.mem_filter.mpr ⟨hf, by simpa using hle⟩
      exact absurd heq (Nat.ne_of_lt (hupper f hmem))
  · rintro ⟨l, before, after, hentries, hline, hgreatest, hlast⟩
    refine ⟨(p, l), ?_, rfl⟩
    rw [lastOnGreatestLine_eq_some_iff, hentries]
    refine ⟨before.filter fun e => e.2.line ≤ line, after.filter fun e => e.2.line ≤ line,
      by simp [List.filter_append, hline], ?_, ?_⟩
    · intro f hf
      obtain ⟨hf, hle⟩ := List.mem_filter.mp hf
      exact hgreatest f (by simp [hentries, hf]) (by simpa using hle)
    · intro f hf
      obtain ⟨hf, hle⟩ := List.mem_filter.mp hf
      have hbound := hgreatest f (by simp [hentries, hf]) (by simpa using hle)
      exact Nat.lt_of_le_of_ne hbound (hlast f hf)

/-- Whatever has been recorded for a text, an offset is taken for the line that the line feeds below
it make. No path is found exactly if all entries lie behind that line, and otherwise the path of
the entry that lies nearest to it. -/
theorem pathAtOffset_finds_nearest (text : String) (ns : List Notice) (offset : Nat) :
    (((forText text).recordAll ns).pathAtOffset offset = none ↔
      ∀ e ∈ ((forText text).recordAll ns).entries, lineFeedsBelow text offset < e.2.line) ∧
    ∀ p, ((forText text).recordAll ns).pathAtOffset offset = some p ↔
      ∃ l, IsNearest (lineFeedsBelow text offset) ((forText text).recordAll ns).entries (p, l) := by
  have hline : ((forText text).recordAll ns).lineOf offset = lineFeedsBelow text offset :=
    lineOf_eq_lineFeedsBelow (by rw [recordAll_forText]; rfl) offset
  rw [pathAtOffset, hline]
  exact ⟨pathAtLine_eq_none_iff, fun p => pathAtLine_eq_some_iff⟩

end Entries

end ManifestForm.PathMap
