import ManifestForm.Proofs.Yaml.Constructs

/-!
# The turns of the scanner

In a turn the scanner either fetches what comes next in the text or hands out the first token of its
queue. What it fetches is the start of the stream, a construct, or the end of the text.
-/

namespace ManifestForm.Yaml

namespace Scanner

section Skipping

theorem leads_skipFrom (inFlow keyAllowed : Bool) (m : Mark) (comment : Bool) (rest : List Char) :
    Cursor.Leads ⟨rest, m⟩ (skipFrom inFlow keyAllowed m comment rest).2 := by
  fun_induction skipFrom inFlow keyAllowed m comment rest with
  | case1 => exact Cursor.leads_refl _
  | case2 keyAllowed m comment x r _ ih => exact ih.cons
  | case3 keyAllowed m comment x r _ _ ih => exact ih.cons
  | case4 keyAllowed m comment x r _ _ _ ih => exact ih.cons
  | case5 keyAllowed m comment r _ _ _ ih => exact ih.cons
  | case6 => exact Cursor.leads_refl _

/-- At the end there is nothing to skip. -/
theorem skipFrom_of_end {inFlow keyAllowed : Bool} {m : Mark} {rest : List Char}
    (h : rest.headD nul = nul) :
    skipFrom inFlow keyAllowed m false rest = (keyAllowed, ⟨rest, m⟩) := by
  cases rest with
  | nil => rfl
  | cons x r =>
      obtain rfl : x = nul := h
      rfl

/-- Comments are skipped. -/
theorem peek_skipFrom_ne (inFlow keyAllowed : Bool) (m : Mark) (comment : Bool)
    (rest : List Char) : (skipFrom inFlow keyAllowed m comment rest).2.peek ≠ '#' := by
  fun_induction skipFrom inFlow keyAllowed m comment rest with
  | case1 => exact (by decide : nul ≠ '#')
  | case2 keyAllowed m comment x r _ ih => exact ih
  | case3 keyAllowed m comment x r _ _ ih => exact ih
  | case4 keyAllowed m comment x r _ _ _ ih => exact ih
  | case5 keyAllowed m comment r _ _ _ ih => exact ih
  | case6 keyAllowed m comment x r _ _ _ hx => exact hx

end Skipping

section Fetching

/-- At the end of a text the scanner goes to the start of a line. -/
def ended (s : Scanner) : Scanner :=
  if s.here.column = 0 then s
  else { s with cursor := ⟨s.cursor.rest, ⟨s.here.index, s.here.line + 1, 0⟩⟩ }

/-- What fetching does to the scanner. -/
inductive FetchStep (s : Scanner) : Scanner → Prop
  | start (hstarted : s.started = false) :
      FetchStep s ({ s with started := true }.push s.here .streamStart)
  | construct {t u : Scanner} (hstarted : s.started = true) (ht : Prepares 0 s.skipToToken t)
      (hpeek : t.cursor.peek ≠ nul) (hu : Reads t u) : FetchStep s u
  | finish {t u : Scanner} (hstarted : s.started = true) (ht : Prepares 0 s.skipToToken t)
      (hend : t.cursor.peek = nul) (hu : Prepares 0 t.ended u) (hforgets : Forgets s u) :
      FetchStep s ({ u with keyAllowed := false }.push u.here .streamEnd)

theorem keys_ended (s : Scanner) : s.ended.keys = s.keys := by
  rw [ended]
  split <;> rfl

theorem yields_streamEnd (s : Scanner) :
    Yields s.streamEnd fun t => ∃ u, Prepares 0 s.ended u ∧ Forgets s u ∧
      t = { u with keyAllowed := false }.push u.here .streamEnd := by
  have hunrolled := prepares_unroll (-1) s.ended
  have hforgets := forgets_unroll (-1) s.ended
  apply ((prepares_dropKey _).and (forgets_dropKey (s.ended.unroll (-1)))).map
  rintro u ⟨⟨hprepares, -⟩, hdropped⟩
  refine ⟨u, hunrolled.trans hprepares, ?_, rfl⟩
  intro k hk hpossible
  rw [← keys_ended s]
  exact hforgets k (hdropped k hk hpossible) hpossible

theorem fetch_step (s : Scanner) : Yields s.fetch (FetchStep s) := by
  rw [fetch]
  split
  · next hstarted => exact yields_ok (.start (by simpa using hstarted))
  · next hstarted =>
      have hstarted : s.started = true := by simpa using hstarted
      split
      · exact yields_error _
      · next t ht =>
          have hprepares :=
            ((prepares_dropStaleKeys _).of_ok ht).trans (prepares_unroll t.here.column t)
          by_cases hend : (t.unroll t.here.column).cursor.peek = nul
          · rw [construct, if_pos hend]
            apply (yields_streamEnd _).mono
            rintro _ ⟨u, hu, hforgets, rfl⟩
            refine .finish hstarted hprepares hend hu ?_
            intro k hk hpossible
            have hunrolled := forgets_unroll t.here.column t k (hforgets k hk hpossible) hpossible
            exact (forgets_dropStaleKeys _).of_ok ht k hunrolled hpossible
          · have hcomment : (t.unroll t.here.column).cursor.peek ≠ '#' := by
              rw [hprepares.cursor]
              exact peek_skipFrom_ne _ _ _ _ _
            exact (reads_construct hend hcomment).mono fun u hu =>
              .construct hstarted hprepares hend hu

end Fetching

section Delivering

/-- What a turn of the scanner is, with what the stream is then. -/
inductive Turn (s : Scanner) : Prop
  | stops (e : Fault) (hstream : ∀ n, s.stream (n + 1) = ⟨[], some e⟩)
  | fetches (t u : Scanner)
      (hwaits : (s.queue = [] ∧ t = s) ∨ (s.dropStaleKeys = .ok t ∧ t.awaitsKey = true))
      (hfetch : t.fetch = .ok u) (hstream : ∀ n, s.stream (n + 1) = u.stream n)
  | ends (first : Lexeme) (queue : List Lexeme) (t : Scanner) (hqueue : s.queue = first :: queue)
      (hdrop : s.dropStaleKeys = .ok t) (hlast : first.token = .streamEnd)
      (hstream : ∀ n, s.stream (n + 1) = ⟨[⟨first, t.here⟩], none⟩)
  | delivers (first : Lexeme) (queue : List Lexeme) (t : Scanner)
      (hqueue : s.queue = first :: queue) (hdrop : s.dropStaleKeys = .ok t)
      (hmore : first.token ≠ .streamEnd)
      (hstream : ∀ n, s.stream (n + 1) =
        ⟨⟨first, t.here⟩ :: ({ t with queue, delivered := t.delivered + 1 }.stream n).tokens,
          ({ t with queue, delivered := t.delivered + 1 }.stream n).fault⟩)

theorem turn (s : Scanner) : s.Turn := by
  cases hqueue : s.queue with
  | nil =>
      cases hfetch : s.fetch with
      | error e =>
          refine .stops e fun n => ?_
          simp only [stream, hqueue, hfetch]
      | ok u =>
          refine .fetches s u (Or.inl ⟨hqueue, rfl⟩) hfetch fun n => ?_
          simp only [stream, hqueue, hfetch]
  | cons first queue =>
      cases hdrop : s.dropStaleKeys with
      | error e =>
          refine .stops e fun n => ?_
          simp only [stream, hqueue, hdrop]
      | ok t =>
          by_cases hawaits : t.awaitsKey = true
          · cases hfetch : t.fetch with
            | error e =>
                refine .stops e fun n => ?_
                simp only [stream, hqueue, hdrop, hawaits, hfetch, if_true]
            | ok u =>
                refine .fetches t u (Or.inr ⟨hdrop, hawaits⟩) hfetch fun n => ?_
                simp only [stream, hqueue, hdrop, hawaits, hfetch, if_true]
          · by_cases hlast : first.token = .streamEnd
            · refine .ends first queue t hqueue hdrop hlast fun n => ?_
              simp only [stream, hqueue, hdrop, hawaits, hlast, if_true]
              rfl
            · refine .delivers first queue t hqueue hdrop hlast fun n => ?_
              simp only [stream, hqueue, hdrop, hawaits, hlast, if_false]
              rfl

end Delivering

end Scanner

end ManifestForm.Yaml
