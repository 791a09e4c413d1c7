import ManifestForm.Proofs.Yaml.Turns

/-!
# Token streams are complete

Each turn before the end of the text reads a character or hands out a token. A character read adds
at most four tokens, so with five for each character left, and one for each token held, the scanner
has a budget that falls with every turn. At the end all candidates lie on earlier lines: they are
dropped, and the tokens that wait are handed out. So the steps allowed for a text are enough, and
any larger number of them gives the same stream.
-/

namespace ManifestForm.Yaml

namespace TokenStream

section Complete

variable {ts : TokenStream} {d : Delivered}

/-- The text has been read up to its end, or up to a fault in it. -/
def IsComplete (ts : TokenStream) : Prop :=
  ts.fault.isSome = true ∨ ∃ d ∈ ts.tokens.getLast?, d.lexeme.token = .streamEnd

theorem not_isComplete_empty : ¬IsComplete ⟨[], none⟩ := by
  rintro (hfault | ⟨d, hd, -⟩)
  · cases hfault
  · cases hd

theorem isComplete_cons_iff (hd : d.lexeme.token ≠ .streamEnd) :
    IsComplete ⟨d :: ts.tokens, ts.fault⟩ ↔ ts.IsComplete := by
  apply or_congr_right
  dsimp only
  rw [List.getLast?_cons]
  cases ts.tokens.getLast? with
  | none => simpa using hd
  | some last => rfl

end Complete

end TokenStream

namespace Scanner

section Budget

variable {n : Nat} {s t u : Scanner}

/-- How many turns may still come before the end of the text has been read. -/
def budget (s : Scanner) : Nat :=
  5 * s.cursor.rest.length + s.held + if s.started then 0 else 2

/-- The candidates have been passed. -/
structure KeysBehind (s : Scanner) : Prop where
  before : ∀ k ∈ s.keys, k.possible = true → k.mark.Before s.here

/-- The end has been read, and nothing can be put before what waits any more. -/
structure Ended (s : Scanner) : Prop where
  last : ∃ l ∈ s.queue.getLast?, l.token = .streamEnd
  keys : ∀ k ∈ s.keys, k.possible = true → k.mark.line < s.here.line

theorem leads_skipToToken (s : Scanner) : s.cursor.Leads s.skipToToken.cursor :=
  leads_skipFrom (0 < s.flow) s.keyAllowed s.here false s.cursor.rest

theorem KeysBehind.skipToToken (h : s.KeysBehind) : s.skipToToken.KeysBehind where
  before := fun k hk hpossible => (leads_skipToToken s).before (h.before k hk hpossible)

theorem budget_skipToToken_le (s : Scanner) : s.skipToToken.budget ≤ s.budget := by
  have hrest := (leads_skipToToken s).length_le
  have hheld : s.skipToToken.held = s.held := rfl
  have hstarted : s.skipToToken.started = s.started := rfl
  rw [budget, budget, hheld, hstarted]
  omega

theorem Prepares.budget_le (h : Prepares 0 s t) : t.budget ≤ s.budget := by
  have hheld := h.held
  rw [budget, budget, h.cursor, h.started]
  omega

theorem Reads.budget_lt (h : Reads s t) : t.budget < s.budget := by
  have hrest := h.passes.length_lt
  have hheld := h.held
  rw [budget, budget, h.started]
  omega

theorem keysBehind_of_reads (hs : s.KeysBehind) (ht : Prepares n s t) (hu : Reads t u) :
    u.KeysBehind := by
  have hpassed : s.here.Before u.here := ht.here ▸ hu.passes.before
  constructor
  intro k hk hpossible
  rcases hu.keys k hk hpossible with hk | hmark
  · rcases ht.keys k hk hpossible with hk | hmark
    · exact (hs.before k hk hpossible).trans hpassed
    · exact hmark ▸ hpassed
  · rw [hmark, ht.here]
    exact hpassed

/-- At the end of a text the scanner is on a line behind all candidates. -/
theorem line_lt_of_ended {k : KeyCandidate} (h : k.mark.Before s.here) :
    k.mark.line < s.ended.here.line := by
  rw [ended]
  by_cases hcolumn : s.here.column = 0
  · rw [if_pos hcolumn]
    rcases h with hline | ⟨-, hbefore⟩
    · exact hline
    · omega
  · rw [if_neg hcolumn]
    have hle : k.mark.line ≤ s.here.line := by
      rcases h with hline | ⟨hline, -⟩
      · exact Nat.le_of_lt hline
      · exact Nat.le_of_eq hline
    exact Nat.lt_succ_of_le hle

theorem held_ended (s : Scanner) : s.ended.held = s.held := by
  rw [ended]
  split <;> rfl

/-- Fetching lowers the budget, or it reads the end. -/
theorem FetchStep.progress (h : s.FetchStep t) (hs : s.KeysBehind) :
    (t.KeysBehind ∧ t.budget < s.budget) ∨ (t.Ended ∧ t.queue.length ≤ s.budget + 1) := by
  cases h with
  | start hstarted =>
      refine Or.inl ⟨⟨hs.before⟩, ?_⟩
      have hpush := (prepares_push s.knows_here .streamStart).held
      have hheld : ({ s with started := true }.push s.here .streamStart).held =
          (s.push s.here .streamStart).held := rfl
      have hcursor : ({ s with started := true }.push s.here .streamStart).cursor = s.cursor := rfl
      have hnow : ({ s with started := true }.push s.here .streamStart).started = true := rfl
      rw [budget, budget, hheld, hcursor, hnow, hstarted]
      simp only [if_true, Bool.false_eq_true, if_false]
      omega
  | @construct u _ _ hprepares _ hreads =>
      refine Or.inl ⟨keysBehind_of_reads hs.skipToToken hprepares hreads, ?_⟩
      calc
        t.budget < u.budget := hreads.budget_lt
        _ ≤ s.skipToToken.budget := hprepares.budget_le
        _ ≤ s.budget := budget_skipToToken_le s
  | @finish t u _ hprepares _ hended hforgets =>
      refine Or.inr ⟨⟨?_, ?_⟩, ?_⟩
      · refine ⟨⟨u.here, .streamEnd⟩, ?_, rfl⟩
        simp [push]
      · intro k hk hpossible
        have hbefore := hs.skipToToken.before k (hforgets k hk hpossible) hpossible
        rw [← hprepares.here] at hbefore
        have hline := line_lt_of_ended hbefore
        rw [← hended.here] at hline
        exact hline
      · have hheld := hended.held
        have hheld' := hprepares.held
        have hskipped : s.skipToToken.held = s.held := rfl
        rw [held_ended] at hheld
        have hqueue : ({ u with keyAllowed := false }.push u.here .streamEnd).queue.length =
            u.queue.length + 1 := by simp [push]
        rw [hqueue, budget]
        unfold held at *
        omega

end Budget

section Completion

variable {s t : Scanner}

theorem KeysBehind.dropStaleKeys (h : s.KeysBehind) (hdrop : s.dropStaleKeys = .ok t) :
    t.KeysBehind := by
  have hprepares := (prepares_dropStaleKeys s).of_ok hdrop
  constructor
  intro k hk hpossible
  rw [hprepares.here]
  exact h.before k ((forgets_dropStaleKeys s).of_ok hdrop k hk hpossible) hpossible

theorem budget_lt_of_delivered {first : Lexeme} {queue : List Lexeme}
    (hqueue : s.queue = first :: queue) (hdrop : s.dropStaleKeys = .ok t) :
    { t with queue, delivered := t.delivered + 1 }.budget < s.budget := by
  have hle := ((prepares_dropStaleKeys s).of_ok hdrop).budget_le
  have hlength : t.queue.length = queue.length + 1 := by
    rw [(queue_dropStaleKeys s).of_ok hdrop, hqueue, List.length_cons]
  simp only [budget, held] at hle ⊢
  omega

/-- After the end every candidate is stale. -/
theorem Ended.not_possible (h : s.Ended) (hdrop : s.dropStaleKeys = .ok t) :
    ∀ k ∈ t.keys, k.possible = false := by
  intro k hk
  rw [Bool.eq_false_iff]
  intro hpossible
  obtain ⟨hmem, hfresh⟩ := (fresh_dropStaleKeys s).of_ok hdrop k hk hpossible
  have hline := h.keys k hmem hpossible
  simp [KeyCandidate.isStale, hpossible, hline] at hfresh

/-- The end stays the last to wait until it is handed out. -/
theorem Ended.delivered (h : s.Ended) {first : Lexeme} {queue : List Lexeme}
    (hqueue : s.queue = first :: queue) (hdrop : s.dropStaleKeys = .ok t)
    (hmore : first.token ≠ .streamEnd) (delivered : Nat) :
    ({ t with queue, delivered } : Scanner).Ended where
  last := by
    obtain ⟨l, hl, hend⟩ := h.last
    rw [hqueue, List.getLast?_cons] at hl
    cases hlast : queue.getLast? with
    | none =>
        rw [hlast] at hl
        obtain rfl := Option.some.inj hl
        exact absurd hend hmore
    | some last =>
        rw [hlast] at hl
        exact ⟨l, hl, hend⟩
  keys := by
    intro k hk hpossible
    rw [h.not_possible hdrop k hk] at hpossible
    cases hpossible

/-- What waits after the end is handed out, one token a turn. -/
theorem Ended.isComplete_stream (h : s.Ended) {n : Nat} (hn : s.queue.length ≤ n) :
    (s.stream n).IsComplete := by
  induction n generalizing s with
  | zero =>
      obtain ⟨l, hl, -⟩ := h.last
      rw [List.eq_nil_of_length_eq_zero (Nat.le_zero.mp hn)] at hl
      cases hl
  | succ n ih =>
      cases s.turn with
      | stops e hstream =>
          rw [hstream]
          exact Or.inl rfl
      | fetches t u hwaits hfetch hstream =>
          rcases hwaits with ⟨hqueue, -⟩ | ⟨hdrop, hawaits⟩
          · obtain ⟨l, hl, -⟩ := h.last
            rw [hqueue] at hl
            cases hl
          · rw [awaitsKey, List.any_eq_true] at hawaits
            obtain ⟨k, hk, hpossible⟩ := hawaits
            rw [h.not_possible hdrop k hk] at hpossible
            cases hpossible
      | ends first queue t _ _ hlast hstream =>
          rw [hstream]
          exact Or.inr ⟨⟨first, t.here⟩, rfl, hlast⟩
      | delivers first queue t hqueue hdrop hmore hstream =>
          rw [hstream, TokenStream.isComplete_cons_iff hmore]
          rw [hqueue] at hn
          exact ih (h.delivered hqueue hdrop hmore _) (Nat.le_of_succ_le_succ hn)

/-- By induction on the steps: each turn lowers the budget or reads the end. -/
theorem KeysBehind.isComplete_stream (h : s.KeysBehind) {n : Nat} (hn : s.budget + 2 ≤ n) :
    (s.stream n).IsComplete := by
  induction n generalizing s with
  | zero => cases hn
  | succ n ih =>
      cases s.turn with
      | stops e hstream =>
          rw [hstream]
          exact Or.inl rfl
      | fetches t u hwaits hfetch hstream =>
          have ht : t.KeysBehind ∧ t.budget ≤ s.budget := by
            rcases hwaits with ⟨-, rfl⟩ | ⟨hdrop, -⟩
            · exact ⟨h, Nat.le_refl _⟩
            · exact ⟨h.dropStaleKeys hdrop, ((prepares_dropStaleKeys s).of_ok hdrop).budget_le⟩
          rw [hstream]
          rcases ((fetch_step t).of_ok hfetch).progress ht.1 with
            ⟨hbehind, hlt⟩ | ⟨hended, hqueue⟩
          · exact ih hbehind (by omega)
          · exact hended.isComplete_stream (by omega)
      | ends first queue t _ _ hlast hstream =>
          rw [hstream]
          exact Or.inr ⟨⟨first, t.here⟩, rfl, hlast⟩
      | delivers first queue t hqueue hdrop hmore hstream =>
          rw [hstream, TokenStream.isComplete_cons_iff hmore]
          have hbehind := h.dropStaleKeys hdrop
          have hlt := budget_lt_of_delivered hqueue hdrop
          exact ih ⟨hbehind.before⟩ (by omega)

/-- More steps do not change a stream that is complete. -/
theorem stream_eq_of_isComplete {n m : Nat} (h : (s.stream n).IsComplete) (hm : n ≤ m) :
    s.stream m = s.stream n := by
  induction n generalizing s m with
  | zero => exact absurd h TokenStream.not_isComplete_empty
  | succ n ih =>
      obtain ⟨m, rfl⟩ := Nat.exists_eq_add_of_lt (Nat.lt_of_succ_le hm)
      have hle : n ≤ n + m := Nat.le_add_right n m
      cases s.turn with
      | stops e hstream => rw [hstream, hstream]
      | fetches t u _ _ hstream =>
          rw [hstream] at h ⊢
          rw [hstream]
          exact ih h hle
      | ends first queue t _ _ _ hstream => rw [hstream, hstream]
      | delivers first queue t _ _ hmore hstream =>
          rw [hstream, TokenStream.isComplete_cons_iff hmore] at h
          rw [hstream, hstream, ih h hle]

end Completion

section Streams

theorem keysBehind_ofText (text : String) : (ofText text).KeysBehind where
  before := by
    intro k hk hpossible
    rw [List.mem_singleton.mp hk] at hpossible
    cases hpossible

theorem budget_ofText_le (text : String) : (ofText text).budget + 2 ≤ fuelFor text := by
  have hlength : (ofText text).cursor.rest.length = text.length := String.length_toList
  have hheld : (ofText text).held = 0 := rfl
  have hstarted : (ofText text).started = false := rfl
  rw [budget, fuelFor, hlength, hheld, hstarted]
  simp only [Bool.false_eq_true, if_false]
  omega

end Streams

end Scanner

/-- The last token of a text without a fault is its end. -/
theorem Token.isComplete_stream (text : String) : (Token.stream text).IsComplete :=
  (Scanner.keysBehind_ofText text).isComplete_stream (Scanner.budget_ofText_le text)

/-- The steps allowed for a text are enough. -/
theorem Token.stream_eq {text : String} {n : Nat} (hn : Scanner.fuelFor text ≤ n) :
    (Scanner.ofText text).stream n = Token.stream text :=
  Scanner.stream_eq_of_isComplete (Token.isComplete_stream text) hn

end ManifestForm.Yaml
