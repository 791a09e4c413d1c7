import ManifestForm.Proofs.Yaml.Turns

/-!
# Where tokens stand

Every token stands where the scanner stood when it read it, or when it took note of what turned out
to be a key. These are places in the text, but for the end of a text whose last line is not ended:
there the scanner counts one more line, and what it reads at the end stands at the start of that
line.
-/

namespace ManifestForm.Yaml

open Cursor (Leads)

namespace Mark

/-- The mark of a place in the text. -/
def StandsIn (text : List Char) (m : Mark) : Prop :=
  ∃ before after, text = before ++ after ∧ m = start.afterAll before

/-- The text ends within a line, and the mark of its end has been moved to the start of another
line. A NUL ends the text. -/
def IsMoved (text : List Char) (m : Mark) : Prop :=
  ∃ before after, text = before ++ after ∧ after.headD nul = nul ∧
    (start.afterAll before).column ≠ 0 ∧
      m = ⟨(start.afterAll before).index, (start.afterAll before).line + 1, 0⟩

/-- A mark stands in the text, or is moved past its end. -/
def IsPlaced (text : List Char) (m : Mark) : Prop := m.StandsIn text ∨ m.IsMoved text

end Mark

namespace Cursor

/-- The text has been read up to the cursor. -/
def IsIn (text : List Char) (c : Cursor) : Prop := Leads ⟨text, .start⟩ c

theorem IsIn.standsIn {text : List Char} {c : Cursor} (h : c.IsIn text) :
    c.mark.StandsIn text := by
  obtain ⟨before, htext, hmark⟩ := h
  exact ⟨before, c.rest, htext, hmark⟩

/-- What a cursor in the text passes leaves it in the text. -/
theorem IsIn.leads {text : List Char} {c c' : Cursor} (h : c.IsIn text) (hc : c.Leads c') :
    c'.IsIn text := Leads.trans h hc

end Cursor

namespace Scanner

/-- What the scanner keeps: it has read the text up to its cursor, or it has moved the mark of the
end, and all tokens and candidates that it holds were found at such places. -/
structure Marked (text : List Char) (s : Scanner) : Prop where
  cursor : s.cursor.IsIn text ∨ (s.cursor.peek = nul ∧ s.here.IsMoved text)
  queue : ∀ t ∈ s.queue, t.mark.IsPlaced text
  keys : ∀ k ∈ s.keys, k.possible = true → k.mark.IsPlaced text

section Marked

variable {text : List Char} {s t : Scanner}

theorem marked_ofText (text : String) : (ofText text).Marked text.toList where
  cursor := Or.inl (Cursor.leads_refl _)
  queue := by
    intro t ht
    cases ht
  keys := by
    intro k hk hpossible
    rw [List.mem_singleton.mp hk] at hpossible
    cases hpossible

theorem Marked.here (h : s.Marked text) : s.here.IsPlaced text := by
  rcases h.cursor with hin | ⟨-, hmoved⟩
  · exact Or.inl hin.standsIn
  · exact Or.inr hmoved

/-- Where a character can be read the cursor is in the text. -/
theorem Marked.isIn (h : s.Marked text) (hpeek : s.cursor.peek ≠ nul) : s.cursor.IsIn text := by
  rcases h.cursor with hin | ⟨hend, -⟩
  · exact hin
  · exact absurd hend hpeek

/-- What a marked scanner knows is placed in the text. -/
theorem Marked.isPlaced_of_knows (h : s.Marked text) {m : Mark} (hm : s.Knows m) :
    m.IsPlaced text := by
  rcases hm with rfl | ⟨k, hk, hpossible, rfl⟩
  · exact h.here
  · exact h.keys k hk hpossible

theorem Marked.isPlaced_of_key (h : s.Marked text) {k : KeyCandidate}
    (hpossible : k.possible = true) (hk : k ∈ s.keys ∨ k.mark = s.here) : k.mark.IsPlaced text := by
  rcases hk with hk | hmark
  · exact h.keys k hk hpossible
  · exact hmark ▸ h.here

theorem Prepares.marked {n : Nat} (h : Prepares n s t) (hs : s.Marked text) : t.Marked text where
  cursor := by
    rw [h.cursor, h.here]
    exact hs.cursor
  queue := by
    intro l hl
    rcases h.queue l hl with hl | hm
    · exact hs.queue l hl
    · exact hs.isPlaced_of_knows hm
  keys := fun k hk hpossible => hs.isPlaced_of_key hpossible (h.keys k hk hpossible)

/-- A construct is read from marks in the text to marks in the text. -/
theorem Reads.marked (h : Reads s t) (hs : s.Marked text) (hin : s.cursor.IsIn text) :
    t.Marked text where
  cursor := Or.inl (hin.leads h.passes.leads)
  queue := by
    intro l hl
    rcases h.queue l hl with hl | hm | ⟨c, hc, hmark⟩
    · exact hs.queue l hl
    · exact hs.isPlaced_of_knows hm
    · exact Or.inl (hmark ▸ (hin.leads hc).standsIn)
  keys := fun k hk hpossible => hs.isPlaced_of_key hpossible (h.keys k hk hpossible)

theorem Marked.skipToToken (h : s.Marked text) : s.skipToToken.Marked text := by
  rw [Scanner.skipToToken]
  rcases h.cursor with hin | ⟨hend, hmoved⟩
  · have hleads := leads_skipFrom (0 < s.flow) s.keyAllowed s.here false s.cursor.rest
    exact ⟨Or.inl (hin.leads hleads), h.queue, h.keys⟩
  · rw [skipFrom_of_end hend]
    exact ⟨Or.inr ⟨hend, hmoved⟩, h.queue, h.keys⟩

/-- The mark of the end is moved only from within a line, so it is moved once. -/
theorem Marked.ended (h : s.Marked text) (hend : s.cursor.peek = nul) : s.ended.Marked text := by
  rw [Scanner.ended]
  by_cases hcolumn : s.here.column = 0
  · rw [if_pos hcolumn]
    exact h
  · rw [if_neg hcolumn]
    refine ⟨Or.inr ⟨hend, ?_⟩, h.queue, h.keys⟩
    rcases h.cursor with ⟨before, htext, hmark⟩ | ⟨-, before, after, -, -, -, hmark⟩
    · have hhere : s.here = Mark.start.afterAll before := hmark
      rw [hhere] at hcolumn
      refine ⟨before, s.cursor.rest, htext, hend, hcolumn, ?_⟩
      rw [← hhere]
      rfl
    · rw [hmark] at hcolumn
      exact absurd rfl hcolumn

theorem FetchStep.marked (h : s.FetchStep t) (hs : s.Marked text) : t.Marked text := by
  cases h with
  | start _ =>
      have hstarted : { s with started := true }.Marked text := ⟨hs.cursor, hs.queue, hs.keys⟩
      exact (prepares_push (knows_here _) .streamStart).marked hstarted
  | construct _ hprepares hpeek hreads =>
      have hmarked := hprepares.marked hs.skipToToken
      exact hreads.marked hmarked (hmarked.isIn hpeek)
  | @finish t u _ hprepares hend hended _ =>
      have hmarked := hended.marked ((hprepares.marked hs.skipToToken).ended hend)
      have hlast : { u with keyAllowed := false }.Marked text :=
        ⟨hmarked.cursor, hmarked.queue, hmarked.keys⟩
      exact (prepares_push (knows_here _) .streamEnd).marked hlast

end Marked

section Stream

variable {text : List Char} {s : Scanner}

/-- A token, and the end of what had been read for it, are in the text. -/
def DeliveredIn (text : List Char) (d : Delivered) : Prop :=
  d.lexeme.mark.IsPlaced text ∧ d.reach.IsPlaced text

/-- The first token of the queue. -/
theorem Marked.delivered (h : s.Marked text) {first : Lexeme} {queue : List Lexeme} {t : Scanner}
    (hqueue : s.queue = first :: queue) (hdrop : s.dropStaleKeys = .ok t) :
    DeliveredIn text ⟨first, t.here⟩ := by
  have hmarked := ((prepares_dropStaleKeys s).of_ok hdrop).marked h
  exact ⟨h.queue first (hqueue ▸ List.mem_cons_self), hmarked.here⟩

/-- By induction on the steps: what is fetched keeps the scanner marked, and what is delivered has
waited in its queue. -/
theorem Marked.stream (h : s.Marked text) (fuel : Nat) :
    ∀ d ∈ (s.stream fuel).tokens, DeliveredIn text d := by
  induction fuel generalizing s with
  | zero => exact List.forall_mem_nil _
  | succ fuel ih =>
      cases s.turn with
      | stops e hstream =>
          rw [hstream]
          exact List.forall_mem_nil _
      | fetches t u hwaits hfetch hstream =>
          rw [hstream]
          have ht : t.Marked text := by
            rcases hwaits with ⟨-, rfl⟩ | ⟨hdrop, -⟩
            · exact h
            · exact ((prepares_dropStaleKeys s).of_ok hdrop).marked h
          exact ih (((fetch_step t).of_ok hfetch).marked ht)
      | ends first queue t hqueue hdrop _ hstream =>
          rw [hstream]
          exact List.forall_mem_singleton.mpr (h.delivered hqueue hdrop)
      | delivers first queue t hqueue hdrop _ hstream =>
          rw [hstream]
          refine List.forall_mem_cons.mpr ⟨h.delivered hqueue hdrop, ih ?_⟩
          have ht := ((prepares_dropStaleKeys s).of_ok hdrop).marked h
          refine ⟨ht.cursor, ?_, ht.keys⟩
          intro l hl
          exact h.queue l (hqueue ▸ List.mem_cons_of_mem first hl)

end Stream

end Scanner

theorem deliveredIn_of_mem_stream {text : String} {d : Delivered}
    (h : d ∈ (Token.stream text).tokens) : Scanner.DeliveredIn text.toList d :=
  (Scanner.marked_ofText text).stream (Scanner.fuelFor text) d h

end ManifestForm.Yaml
