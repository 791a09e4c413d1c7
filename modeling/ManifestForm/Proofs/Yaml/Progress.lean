import ManifestForm.Proofs.Yaml.Cursor

/-!
# Progress

A cursor passes to another one if a character has been read between the two. Each round of the loops
that read URIs and scalars passes on, so they need no more rounds than there are characters left:
any two bounds above that number give the same.
-/

namespace ManifestForm.Yaml

namespace Mark

/-- On an earlier line, or at a lower column of the same line. -/
def Before (m m' : Mark) : Prop :=
  m.line < m'.line ∨ (m.line = m'.line ∧ m.column < m'.column)

/-- A mark comes before the one behind the next character. -/
theorem before_after (m : Mark) (c : Char) : m.Before (m.after c) := by
  rw [after]
  split
  · exact Or.inl (Nat.lt_succ_self m.line)
  · exact Or.inr ⟨rfl, Nat.lt_succ_self m.column⟩

theorem Before.trans {m m' m'' : Mark} (h : m.Before m') (h' : m'.Before m'') : m.Before m'' := by
  unfold Before at *
  omega

theorem Before.afterAll {m m' : Mark} (h : m.Before m') (cs : List Char) :
    m.Before (m'.afterAll cs) := by
  induction cs generalizing m' with
  | nil => exact h
  | cons c cs ih => exact ih (h.trans (before_after m' c))

end Mark

section Cursors

namespace Cursor

variable {c c' c'' : Cursor}

/-- At least one character has been read between the two cursors. -/
def Passes (c c' : Cursor) : Prop := c.rest ≠ [] ∧ c.skip.Leads c'

theorem rest_ne_nil_of_peek (h : c.peek ≠ nul) : c.rest ≠ [] := by
  intro hrest
  rw [peek, hrest] at h
  exact h rfl

/-- A cursor that goes on leaves no more to read. -/
theorem Leads.length_le (h : c.Leads c') : c'.rest.length ≤ c.rest.length := by
  obtain ⟨cs, hrest, -⟩ := h
  rw [hrest, List.length_append]
  omega

theorem Leads.before {m : Mark} (h : c.Leads c') (hm : m.Before c.mark) : m.Before c'.mark := by
  obtain ⟨cs, -, hmark⟩ := h
  rw [hmark]
  exact hm.afterAll cs

theorem Passes.leads (h : c.Passes c') : c.Leads c' := (leads_skip c).trans h.2

theorem Passes.trans_leads (h : c.Passes c') (h' : c'.Leads c'') : c.Passes c'' :=
  ⟨h.1, h.2.trans h'⟩

/-- What passes on from further on passes on from here. -/
theorem Leads.passes (h : c.Leads c') (h' : c'.Passes c'') : c.Passes c'' := by
  obtain ⟨cs, hrest, hmark⟩ := h
  obtain ⟨rest, m⟩ := c
  cases cs with
  | nil =>
      obtain rfl : c' = ⟨rest, m⟩ := by
        obtain ⟨rest', m'⟩ := c'
        exact (Cursor.mk.injEq ..).mpr ⟨hrest.symm, hmark⟩
      exact h'
  | cons x cs =>
      obtain rfl : rest = x :: (cs ++ c'.rest) := hrest
      refine ⟨List.cons_ne_nil _ _, ?_⟩
      have hskip : (Cursor.mk (x :: (cs ++ c'.rest)) m).skip.Leads c' := ⟨cs, rfl, hmark⟩
      exact hskip.trans h'.leads

/-- A cursor that passes a character leaves less to read. -/
theorem Passes.length_lt (h : c.Passes c') : c'.rest.length < c.rest.length := by
  obtain ⟨hrest, hskip⟩ := h
  have hle := hskip.length_le
  obtain ⟨rest, m⟩ := c
  cases rest with
  | nil => exact absurd rfl hrest
  | cons x r => exact Nat.lt_succ_of_le hle

/-- A cursor that passes a character comes to a later mark. -/
theorem Passes.before (h : c.Passes c') : c.mark.Before c'.mark := by
  obtain ⟨hrest, hskip⟩ := h
  obtain ⟨rest, m⟩ := c
  cases rest with
  | nil => exact absurd rfl hrest
  | cons x r => exact hskip.before (m.before_after x)

theorem passes_skip (h : c.peek ≠ nul) : c.Passes c.skip := ⟨rest_ne_nil_of_peek h, leads_refl _⟩

/-- A break has a character at least. -/
theorem passes_skipBreak (h : isBreak c.peek = true) : c.Passes c.skipBreak := by
  have hrest : c.rest ≠ [] := by
    apply rest_ne_nil_of_peek
    intro hpeek
    rw [hpeek] at h
    cases h
  rw [skipBreak]
  split
  · exact ⟨hrest, leads_skip c.skip⟩
  · exact ⟨hrest, leads_refl c.skip⟩

/-- Where taking characters stops, the test fails. -/
theorem peek_takeWhile {test : Char → Bool} (htest : test nul = false) (c : Cursor) :
    test (c.takeWhile test).2.peek = false := by
  rw [takeWhile]
  generalize c.mark = m
  induction c.rest generalizing m with
  | nil => exact htest
  | cons x r ih =>
      rw [takeWhileFrom]
      split
      · exact ih (m.after x)
      · next h => exact Bool.eq_false_iff.mpr h

end Cursor

/-- A gap that starts with a blank or a break is not empty. -/
theorem Gap.passes_read {indent : Nat} {g g' : Gap} {c c' : Cursor}
    (h : g.read indent c = some (g', c')) (hpeek : isBlank c.peek || isBreak c.peek) :
    c.Passes c' := by
  obtain ⟨rest, m⟩ := c
  cases rest with
  | nil => cases hpeek
  | cons x r =>
      refine ⟨List.cons_ne_nil x r, ?_⟩
      rw [read, readFrom] at h
      split at h
      · split at h
        · split at h
          · cases h
          · exact leads_readFrom h
        · exact leads_readFrom h
      · next hblank =>
          split at h
          · exact leads_readFrom h
          · split at h
            · exact leads_readFrom h
            · next hbreak =>
                rcases Bool.or_eq_true_iff.mp hpeek with hx | hx
                · exact absurd hx hblank
                · exact absurd hx hbreak

end Cursors

namespace Plain

/-- A plain scalar can start at the cursor. It may be a tab, which is a gap. -/
structure Starts (inFlow : Bool) (c : Cursor) : Prop where
  noMark : c.atDocumentMark = false
  noEnd : c.peek ≠ nul
  noComment : c.peek ≠ '#'
  noFlow : (inFlow && isFlow c.peek) = false
  noValue : (c.peek = ':' && (isGap (c.ahead 1) || (inFlow && isFlow (c.ahead 1)))) = false

variable {inFlow : Bool} {c : Cursor}

/-- The first chunk is empty only at a gap. -/
theorem Starts.passes_chunkFrom (h : Starts inFlow c) :
    c.Passes (chunkFrom inFlow c.mark c.rest).2 ∨
      (chunkFrom inFlow c.mark c.rest).2 = c ∧ (isBlank c.peek || isBreak c.peek) = true := by
  obtain ⟨hmark, hend, hcomment, hflow, hvalue⟩ := h
  have hrest := Cursor.rest_ne_nil_of_peek hend
  obtain ⟨rest, m⟩ := c
  cases rest with
  | nil => exact absurd rfl hrest
  | cons x r =>
      have hstop : (x = ':' && (isGap (r.headD nul) || (inFlow && isFlow (r.headD nul)))) = false :=
        hvalue
      have hx : (inFlow && isFlow x) = false := hflow
      rw [chunkFrom, hstop, hx]
      by_cases hgap : isGap x = true
      · refine Or.inr ⟨?_, ?_⟩
        · simp [hgap]
        · have hnul : x ≠ nul := hend
          simpa [isGap, isBreakOrEnd, Cursor.peek, hnul] using hgap
      · refine Or.inl ⟨hrest, ?_⟩
        simp only [hgap, Bool.or_false]
        exact leads_chunkFrom inFlow (m.after x) r

theorem Starts.passes_scan (h : Starts inFlow c) (indent : Nat) :
    Yields (scan inFlow indent c) fun r => c.Passes r.2.2 := by
  have hchunk := h.passes_chunkFrom
  rw [scan]
  split
  · exact yields_error _
  · next text gap next hpieces =>
      apply yields_ok
      have hstart : (c.atDocumentMark || decide (c.peek = '#')) = false := by
        simp [h.noMark, h.noComment]
      rw [pieces, hstart, if_neg Bool.false_ne_true] at hpieces
      revert hchunk hpieces
      generalize chunkFrom inFlow c.mark c.rest = taken
      obtain ⟨chunk, behind⟩ := taken
      intro hchunk hpieces
      dsimp only at hchunk hpieces
      split at hpieces
      · next hgap =>
          obtain rfl := (Prod.mk.inj (Prod.mk.inj (Option.some.inj hpieces)).2).2
          rcases hchunk with hpasses | ⟨rfl, hblank⟩
          · exact hpasses
          · rw [hblank] at hgap
            cases hgap
      · split at hpieces
        · cases hpieces
        · next gap' last hread =>
            have hlast : c.Passes last := by
              rcases hchunk with hpasses | ⟨rfl, hblank⟩
              · exact hpasses.trans_leads (Gap.leads_read hread)
              · exact Gap.passes_read hread hblank
            split at hpieces
            · obtain rfl := (Prod.mk.inj (Prod.mk.inj (Option.some.inj hpieces)).2).2
              exact hlast
            · exact hlast.trans_leads (leads_pieces hpieces)

end Plain

section Loops

open Cursor (Passes passes_skip passes_skipBreak leads_skip leads_skipBreak leads_takeWhile)

/-- Each round reads a character of the URI. -/
theorem Tag.uriFrom_eq (start : Mark) {n m : Nat} {c : Cursor} (hn : c.rest.length < n)
    (hm : c.rest.length < m) : uriFrom start n c = uriFrom start m c := by
  induction n generalizing m c with
  | zero => exact absurd hn (Nat.not_lt_zero _)
  | succ n ih =>
      cases m with
      | zero => exact absurd hm (Nat.not_lt_zero _)
      | succ m =>
          rw [uriFrom, uriFrom]
          apply ite_congr rfl (fun _ => rfl)
          intro huri
          have hpeek : c.peek ≠ nul := by
            intro hpeek
            rw [hpeek] at huri
            exact huri rfl
          have hshorter {next : Cursor} (hnext : c.Passes next) :
              uriFrom start n next = uriFrom start m next := by
            have hlt := hnext.length_lt
            exact ih (by omega) (by omega)
          apply ite_congr rfl
          · intro _
            split
            · rfl
            · next x next hescape =>
                have hnext := (leads_uriEscape start c).of_ok hescape
                rw [hshorter ⟨(passes_skip hpeek).1, hnext⟩]
          · intro _
            rw [hshorter (passes_skip hpeek)]

theorem Quoted.chunk_eq (single : Bool) (start : Mark) {n m : Nat} {c : Cursor}
    (hn : c.rest.length < n) (hm : c.rest.length < m) :
    chunk single start n c = chunk single start m c := by
  induction n generalizing m c with
  | zero => exact absurd hn (Nat.not_lt_zero _)
  | succ n ih =>
      cases m with
      | zero => exact absurd hm (Nat.not_lt_zero _)
      | succ m =>
          rw [chunk, chunk]
          dsimp only
          apply ite_congr rfl (fun _ => rfl)
          intro hgap
          have hrest : c.rest ≠ [] := by
            apply Cursor.rest_ne_nil_of_peek
            intro hpeek
            rw [hpeek] at hgap
            exact hgap rfl
          have hshorter {next : Cursor} (hnext : c.skip.Leads next) :
              chunk single start n next = chunk single start m next := by
            have hlt := Passes.length_lt ⟨hrest, hnext⟩
            exact ih (by omega) (by omega)
          have hone := hshorter (Cursor.leads_refl c.skip)
          have htwo := hshorter (leads_skip c.skip)
          rw [hone, htwo]
          split
          · rfl
          · split
            · rfl
            · split
              · rfl
              · split
                · rfl
                · split
                  · rfl
                  · next x next hescape =>
                      rw [hshorter ((leads_escape start c).of_ok hescape)]

/-- A chunk is empty only at a gap and at the closing quote. -/
theorem Quoted.passes_chunk (single : Bool) (start : Mark) (n : Nat) {c : Cursor}
    (hpeek : c.peek ≠ nul) :
    Yields (chunk single start (n + 1) c) fun r =>
      c.Passes r.2.2 ∨ r.2.2 = c ∧
        ((isBlank c.peek || isBreak c.peek) = true ∨
          c.peek = (if single then '\'' else '"')) := by
  have hrest := Cursor.rest_ne_nil_of_peek hpeek
  have hadd {y : Char} {next : Cursor} {Q : List Char × Gap × Cursor → Prop}
      (hnext : c.skip.Leads next) :
      Yields ((chunk single start n next).map fun r => (y :: r.1, r.2))
        fun r => c.Passes r.2.2 ∨ Q r :=
    (leads_chunk single start n next).map fun r hr => Or.inl ⟨hrest, hnext.trans hr⟩
  rw [chunk]
  dsimp only
  split
  · next hgap =>
      refine yields_ok (Or.inr ⟨rfl, Or.inl ?_⟩)
      simpa [isGap, isBreakOrEnd, hpeek] using hgap
  · split
    · split
      · exact hadd (Cursor.leads_refl c.skip)
      · next hquote =>
          split
          · exact hadd (leads_skip c.skip)
          · exact yields_ok (Or.inr ⟨rfl, Or.inr (not_not.mp hquote)⟩)
    · split
      · next hquote => exact yields_ok (Or.inr ⟨rfl, Or.inr hquote⟩)
      · split
        · exact hadd (Cursor.leads_refl c.skip)
        · split
          · exact yields_ok (Or.inl ⟨hrest, leads_skipBreak c.skip⟩)
          · split
            · exact yields_error _
            · next y next hescape => exact hadd ((leads_escape start c).of_ok hescape)

/-- Each round but the last reads a gap or a piece. -/
theorem Quoted.pieces_eq (single : Bool) (start : Mark) {n m : Nat} {c : Cursor}
    (hn : c.rest.length < n) (hm : c.rest.length < m) :
    pieces single start n c = pieces single start m c := by
  induction n generalizing m c with
  | zero => exact absurd hn (Nat.not_lt_zero _)
  | succ n ih =>
      cases m with
      | zero => exact absurd hm (Nat.not_lt_zero _)
      | succ m =>
          rw [pieces, pieces]
          apply ite_congr rfl (fun _ => rfl)
          intro _
          apply ite_congr rfl (fun _ => rfl)
          intro hpeek
          split
          · rfl
          · next cs gap next hchunk =>
              apply ite_congr rfl (fun _ => rfl)
              intro hquote
              split
              · rfl
              · next gap' beyond hgap =>
                  have hbeyond : c.Passes beyond := by
                    obtain hnext | ⟨hnext, hstop⟩ :=
                      (passes_chunk single start _ hpeek).of_ok hchunk
                    · exact hnext.trans_leads (Gap.leads_read hgap)
                    · obtain rfl : next = c := hnext
                      exact Gap.passes_read hgap (hstop.resolve_right hquote)
                  have hlt := hbeyond.length_lt
                  rw [ih (m := m) (c := beyond) (by omega) (by omega)]

/-- A gap is read in each round, so each passes on. -/
theorem Plain.pieces_eq (inFlow : Bool) (indent : Nat) {n m : Nat} (text : List Char) (gap : Gap)
    {c : Cursor} (hn : c.rest.length < n) (hm : c.rest.length < m) :
    pieces inFlow indent n text gap c = pieces inFlow indent m text gap c := by
  induction n generalizing m text gap c with
  | zero => exact absurd hn (Nat.not_lt_zero _)
  | succ n ih =>
      cases m with
      | zero => exact absurd hm (Nat.not_lt_zero _)
      | succ m =>
          have hchunk := leads_chunkFrom inFlow c.mark c.rest
          rw [pieces, pieces]
          apply ite_congr rfl (fun _ => rfl)
          intro _
          revert hchunk
          generalize chunkFrom inFlow c.mark c.rest = taken
          obtain ⟨chunk, next⟩ := taken
          intro hchunk
          dsimp only
          apply ite_congr rfl (fun _ => rfl)
          intro hpeek
          split
          · rfl
          · next gap' beyond hgap =>
              apply ite_congr rfl (fun _ => rfl)
              intro _
              rw [Bool.not_eq_true, Bool.not_eq_false'] at hpeek
              have hbeyond : c.Passes beyond := hchunk.passes (Gap.passes_read hgap hpeek)
              have hlt := hbeyond.length_lt
              exact ih _ _ (by omega) (by omega)

/-- Each round but the last reads the break behind its line. -/
theorem Block.content_eq (literal : Bool) (chomping : Chomping) (parent : Int) {n m : Nat}
    (indent : Nat) (lead blank : Bool) (empty : Nat) {c : Cursor} (hn : c.rest.length < n)
    (hm : c.rest.length < m) :
    content literal chomping parent n indent lead blank empty c =
      content literal chomping parent m indent lead blank empty c := by
  induction n generalizing m indent lead blank empty c with
  | zero => exact absurd hn (Nat.not_lt_zero _)
  | succ n ih =>
      cases m with
      | zero => exact absurd hm (Nat.not_lt_zero _)
      | succ m =>
          have hline := leads_takeWhile (fun x => !isBreakOrEnd x) c
          have hstop : (!isBreakOrEnd (c.takeWhile fun x => !isBreakOrEnd x).2.peek) = false :=
            @Cursor.peek_takeWhile (fun x => !isBreakOrEnd x) rfl c
          rw [content, content]
          apply ite_congr rfl _ (fun _ => rfl)
          intro _
          revert hline hstop
          generalize c.takeWhile (fun x => !isBreakOrEnd x) = taken
          obtain ⟨line, next⟩ := taken
          intro hline hstop
          dsimp only at hline hstop ⊢
          apply ite_congr rfl (fun _ => rfl)
          intro hpeek
          split
          · rfl
          · next indent' empty' beyond hempty =>
              have hbreak : isBreak next.peek = true := by
                simpa [isBreakOrEnd, hpeek] using hstop
              have hbeyond : c.Passes beyond :=
                (hline.passes (passes_skipBreak hbreak)).trans_leads
                  ((leads_emptyLines parent indent next.skipBreak).of_ok hempty)
              have hlt := hbeyond.length_lt
              rw [ih indent' true (isBlank c.peek) empty' (m := m) (c := beyond) (by omega)
                (by omega)]

end Loops

end ManifestForm.Yaml
