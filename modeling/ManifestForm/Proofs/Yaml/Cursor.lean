import ManifestForm.Yaml.Token.Cursor
import ManifestForm.Yaml.Token.Scalar
import Mathlib.Data.List.Induction

/-!
# Reading forwards

A cursor leads to another one if some characters have been read between the two: they are what the
rest has lost, and they move the mark. Every reading of a scalar, a name, a tag or a directive ends
at a cursor to which the first one leads, so marks never leave the text.
-/

namespace ManifestForm.Yaml

namespace Mark

/-- The mark behind characters. -/
def afterAll (m : Mark) (cs : List Char) : Mark := cs.foldl after m

@[simp] theorem afterAll_nil (m : Mark) : m.afterAll [] = m := rfl

@[simp] theorem afterAll_cons (m : Mark) (c : Char) (cs : List Char) :
    m.afterAll (c :: cs) = (m.after c).afterAll cs := rfl

/-- Characters may be counted in two portions. -/
theorem afterAll_append (m : Mark) (cs ds : List Char) :
    m.afterAll (cs ++ ds) = (m.afterAll cs).afterAll ds := List.foldl_append

theorem index_after (m : Mark) (c : Char) : (m.after c).index = m.index + 1 := by
  rw [after]
  split <;> rfl

/-- The index counts the characters, of whatever kind. -/
theorem index_afterAll (m : Mark) (cs : List Char) :
    (m.afterAll cs).index = m.index + cs.length := by
  induction cs generalizing m with
  | nil => rfl
  | cons c cs ih =>
      rw [afterAll_cons, ih, index_after, List.length_cons]
      omega

/-- Each line feed starts a line, and nothing else does. -/
theorem line_afterAll (m : Mark) (cs : List Char) :
    (m.afterAll cs).line = m.line + cs.count '\n' := by
  induction cs generalizing m with
  | nil => rfl
  | cons c cs ih =>
      rw [afterAll_cons, ih, after]
      by_cases h : c = '\n'
      · subst h
        rw [if_pos rfl, List.count_cons_self]
        dsimp only
        omega
      · rw [if_neg h, List.count_cons_of_ne h]

/-- A mark stands at the start of a line if nothing or a line feed is before it. -/
theorem column_afterAll_eq_zero_iff (cs : List Char) :
    (start.afterAll cs).column = 0 ↔ ∀ c ∈ cs.getLast?, c = '\n' := by
  cases cs using List.reverseRecOn with
  | nil => simp [start]
  | append_singleton cs c =>
      rw [afterAll_append, afterAll_cons, afterAll_nil, after]
      by_cases h : c = '\n' <;> simp [h]

end Mark

section Readings

/-- Whatever the reading gives has the property. -/
def Yields {α : Type} (x : Except Fault α) (P : α → Prop) : Prop :=
  match x with
  | .ok a => P a
  | .error _ => True

section Yields

variable {α β : Type} {P P' : α → Prop} {Q : β → Prop} {x : Except Fault α}

theorem yields_ok {a : α} (h : P a) : Yields (.ok a) P := h

theorem yields_error (e : Fault) : Yields (.error e) P := trivial

/-- What is known of a reading holds of its value, if there is one. -/
theorem Yields.of_ok {a : α} (h : Yields x P) (hx : x = .ok a) : P a := by
  rw [hx] at h
  exact h

/-- What is known of a reading may be weakened. -/
theorem Yields.mono (hx : Yields x P) (h : ∀ a, P a → P' a) : Yields x P' := by
  cases x with
  | error e => exact yields_error e
  | ok a => exact h a hx

/-- Two things known of one reading hold together. -/
theorem Yields.and (hx : Yields x P) (hx' : Yields x P') : Yields x fun a => P a ∧ P' a := by
  cases x with
  | error e => exact yields_error e
  | ok a => exact ⟨hx, hx'⟩

/-- A reading goes on from whatever the first part gives. -/
theorem Yields.bind {f : α → Except Fault β} (hx : Yields x P) (hf : ∀ a, P a → Yields (f a) Q) :
    Yields (x >>= f) Q := by
  cases x with
  | error e => exact yields_error e
  | ok a => exact hf a hx

/-- What is done with the result need only be the same where the property holds. -/
theorem Yields.bind_congr {f g : α → Except Fault β} (hx : Yields x P)
    (h : ∀ a, P a → f a = g a) : (x >>= f) = (x >>= g) := by
  cases x with
  | error e => rfl
  | ok a => exact h a hx

/-- What is known of a reading is carried along a change of its value. -/
theorem Yields.map {f : α → β} (hx : Yields x P) (hf : ∀ a, P a → Q (f a)) :
    Yields (x.map f) Q := by
  cases x with
  | error e => exact yields_error e
  | ok a => exact hf a hx

/-- Each branch of a test may use how the test went. -/
theorem yields_ite_of {c : Prop} [Decidable c] {y : Except Fault α} (hx : c → Yields x P)
    (hy : ¬c → Yields y P) : Yields (if c then x else y) P := by
  split
  · next h => exact hx h
  · next h => exact hy h

theorem yields_ite {c : Prop} [Decidable c] {y : Except Fault α} (hx : Yields x P)
    (hy : Yields y P) : Yields (if c then x else y) P :=
  yields_ite_of (fun _ => hx) fun _ => hy

end Yields

end Readings

namespace Cursor

/-- Some characters have been read between the two cursors. -/
def Leads (c c' : Cursor) : Prop := ∃ cs, c.rest = cs ++ c'.rest ∧ c'.mark = c.mark.afterAll cs

/-- A cursor that stays has passed no character. -/
theorem leads_refl (c : Cursor) : c.Leads c := ⟨[], rfl, rfl⟩

/-- What two cursors pass one after the other stands in this order in the text. -/
theorem Leads.trans {c c' c'' : Cursor} (h : c.Leads c') (h' : c'.Leads c'') : c.Leads c'' := by
  obtain ⟨cs, hrest, hmark⟩ := h
  obtain ⟨ds, hrest', hmark'⟩ := h'
  refine ⟨cs ++ ds, ?_, ?_⟩
  · rw [hrest, hrest', List.append_assoc]
  · rw [hmark', hmark, Mark.afterAll_append]

/-- Reading one character and then on. -/
theorem Leads.cons {x : Char} {r : List Char} {m : Mark} {c : Cursor}
    (h : Leads ⟨r, m.after x⟩ c) : Leads ⟨x :: r, m⟩ c := by
  obtain ⟨cs, hrest, hmark⟩ := h
  exact ⟨x :: cs, congrArg (x :: ·) hrest, hmark⟩

/-- A skip passes one character, or none at the end. -/
theorem leads_skip (c : Cursor) : c.Leads c.skip := by
  obtain ⟨rest, m⟩ := c
  cases rest with
  | nil => exact leads_refl _
  | cons x r => exact (leads_refl _).cons

theorem leads_skipN (n : Nat) (c : Cursor) : c.Leads (skipN n c) := by
  induction n generalizing c with
  | zero => exact leads_refl c
  | succ n ih => exact (leads_skip c).trans (ih c.skip)

/-- A break is passed as one character or as two. -/
theorem leads_skipBreak (c : Cursor) : c.Leads c.skipBreak := by
  rw [skipBreak]
  split
  · exact (leads_skip c).trans (leads_skip c.skip)
  · split
    · exact leads_skip c
    · exact leads_refl c

/-- The characters that are taken are those that are passed. -/
theorem leads_takeWhileFrom (test : Char → Bool) (m : Mark) (rest : List Char) :
    Leads ⟨rest, m⟩ (takeWhileFrom test m rest).2 := by
  induction rest generalizing m with
  | nil => exact leads_refl _
  | cons x r ih =>
      rw [takeWhileFrom]
      split
      · exact (ih (m.after x)).cons
      · exact leads_refl _

theorem leads_takeWhile (test : Char → Bool) (c : Cursor) : c.Leads (c.takeWhile test).2 :=
  leads_takeWhileFrom test c.mark c.rest

/-- What is skipped is passed like what is taken. -/
theorem leads_skipWhile (test : Char → Bool) (c : Cursor) : c.Leads (c.skipWhile test) :=
  leads_takeWhile test c

theorem leads_skipBlanks (c : Cursor) : c.Leads c.skipBlanks := leads_skipWhile isBlank c

/-- A comment is passed up to the end of its line. -/
theorem leads_skipComment (c : Cursor) : c.Leads c.skipComment := by
  rw [skipComment]
  split
  · exact leads_skipWhile _ c
  · exact leads_refl c

end Cursor

open Cursor (Leads leads_refl leads_skip leads_skipN leads_skipBreak leads_takeWhile leads_skipWhile
  leads_skipBlanks leads_skipComment)

section PlainScalars

/-- The blanks and breaks of a gap are passed one by one; a tab may end the reading. -/
theorem Gap.leads_readFrom {indent : Nat} {g g' : Gap} {m : Mark} {rest : List Char} {c : Cursor}
    (h : readFrom indent g m rest = some (g', c)) : Leads ⟨rest, m⟩ c := by
  induction rest generalizing g m with
  | nil =>
      obtain ⟨-, rfl⟩ := Prod.mk.inj (Option.some.inj h)
      exact leads_refl _
  | cons x r ih =>
      rw [readFrom] at h
      split at h
      · split at h
        · split at h
          · cases h
          · exact (ih h).cons
        · exact (ih h).cons
      · split at h
        · exact (ih h).cons
        · split at h
          · exact (ih h).cons
          · obtain ⟨-, rfl⟩ := Prod.mk.inj (Option.some.inj h)
            exact leads_refl _

theorem Gap.leads_read {indent : Nat} {g g' : Gap} {c c' : Cursor}
    (h : g.read indent c = some (g', c')) : c.Leads c' := leads_readFrom h

namespace Plain

/-- A piece of a plain scalar ends before the character that stops it. -/
theorem leads_chunkFrom (inFlow : Bool) (m : Mark) (rest : List Char) :
    Leads ⟨rest, m⟩ (chunkFrom inFlow m rest).2 := by
  induction rest generalizing m with
  | nil => exact leads_refl _
  | cons x r ih =>
      rw [chunkFrom]
      dsimp only
      split
      · exact leads_refl _
      · exact (ih (m.after x)).cons

theorem leads_pieces {inFlow : Bool} {indent fuel : Nat} {text text' : List Char} {gap gap' : Gap}
    {c c' : Cursor} (h : pieces inFlow indent fuel text gap c = some (text', gap', c')) :
    c.Leads c' := by
  induction fuel generalizing text gap c with
  | zero =>
      obtain ⟨-, -, rfl⟩ : text = text' ∧ gap = gap' ∧ c = c' := by simpa [pieces] using h
      exact leads_refl c
  | succ fuel ih =>
      have hchunk := leads_chunkFrom inFlow c.mark c.rest
      rw [pieces] at h
      split at h
      · obtain ⟨-, -, rfl⟩ : text = text' ∧ gap = gap' ∧ c = c' := by simpa using h
        exact leads_refl c
      · split at h
        next chunk next hnext =>
          rw [hnext] at hchunk
          split at h
          next text₁ gap₁ _ =>
            split at h
            · obtain rfl := (Prod.mk.inj (Prod.mk.inj (Option.some.inj h)).2).2
              exact hchunk
            · split at h
              · cases h
              · next gap₂ beyond hgap =>
                  have hbeyond := hchunk.trans (Gap.leads_read hgap)
                  split at h
                  · obtain rfl := (Prod.mk.inj (Prod.mk.inj (Option.some.inj h)).2).2
                    exact hbeyond
                  · exact hbeyond.trans (ih h)

theorem leads_scan (inFlow : Bool) (indent : Nat) (c : Cursor) :
    Yields (scan inFlow indent c) fun r => c.Leads r.2.2 := by
  rw [scan]
  split
  · exact yields_error _
  · next text gap next hpieces => exact yields_ok (leads_pieces hpieces)

end Plain

end PlainScalars

namespace Quoted

/-- An escape is read behind its backslash, which is passed first. -/
theorem leads_escape (start : Mark) (c : Cursor) :
    Yields (escape start c) fun r => c.skip.Leads r.2 := by
  have hdigits : c.skip.Leads c.skip.skip := leads_skip c.skip
  rw [escape]
  split
  · exact yields_ok hdigits
  · exact yields_error _
  · split
    · exact yields_error _
    · split
      · exact yields_ok (hdigits.trans (leads_skipN _ _))
      · exact yields_error _

/-- A piece of a quoted scalar ends before a gap or the closing quote, or behind an escaped break.
-/
theorem leads_chunk (single : Bool) (start : Mark) (fuel : Nat) (c : Cursor) :
    Yields (chunk single start fuel c) fun r => c.Leads r.2.2 := by
  induction fuel generalizing c with
  | zero => exact yields_ok (leads_refl c)
  | succ fuel ih =>
      have hadd {y : Char} {next : Cursor} (h : c.Leads next) :
          Yields ((chunk single start fuel next).map fun r => (y :: r.1, r.2))
            fun r => c.Leads r.2.2 :=
        (ih next).map fun r hr => h.trans hr
      rw [chunk]
      dsimp only
      split
      · exact yields_ok (leads_refl c)
      · split
        · split
          · exact hadd (leads_skip c)
          · split
            · exact hadd ((leads_skip c).trans (leads_skip c.skip))
            · exact yields_ok (leads_refl c)
        · split
          · exact yields_ok (leads_refl c)
          · split
            · exact hadd (leads_skip c)
            · split
              · exact yields_ok ((leads_skip c).trans (leads_skipBreak c.skip))
              · split
                · exact yields_error _
                · next y next hescape =>
                    exact hadd ((leads_skip c).trans ((leads_escape start c).of_ok hescape))

theorem leads_pieces (single : Bool) (start : Mark) (fuel : Nat) (c : Cursor) :
    Yields (pieces single start fuel c) fun r => c.Leads r.2 := by
  induction fuel generalizing c with
  | zero => exact yields_ok (leads_refl c)
  | succ fuel ih =>
      rw [pieces]
      split
      · exact yields_error _
      · split
        · exact yields_error _
        · split
          · exact yields_error _
          · next cs gap next hchunk =>
              have hnext : c.Leads next := (leads_chunk single start _ c).of_ok hchunk
              by_cases hclose : next.peek = (if single then '\'' else '"')
              · rw [if_pos hclose]
                exact yields_ok hnext
              · rw [if_neg hclose]
                split
                · exact yields_error _
                · next gap' beyond hgap =>
                    have hbeyond := hnext.trans (Gap.leads_read hgap)
                    exact (ih beyond).map fun r hr => hbeyond.trans hr

theorem leads_scan (single : Bool) (c : Cursor) :
    Yields (scan single c) fun r => c.skip.Leads r.2 := by
  rw [scan]
  apply (leads_pieces single c.mark _ c.skip).map
  intro r hr
  exact hr.trans (leads_skip r.2)

end Quoted

namespace Block

/-- An indentation digit is one character; what else stands there is left. -/
theorem leads_digit (start : Mark) (c : Cursor) : Yields (digit start c) fun r => c.Leads r.2 := by
  rw [digit]
  split
  · exact yields_ok (leads_refl c)
  · split
    · exact yields_error _
    · exact yields_ok (leads_skip c)

/-- The two indicators of a block scalar may come in either order. -/
theorem leads_indicators (start : Mark) (c : Cursor) :
    Yields (indicators start c) fun r => c.Leads r.2 := by
  rw [indicators]
  split
  · apply (leads_digit start c.skip).map
    intro r hr
    exact (leads_skip c).trans hr
  · apply (leads_digit start c).map
    rintro ⟨n, next⟩ hnext
    dsimp only
    split
    · exact hnext.trans (leads_skip next)
    · exact hnext

/-- A header is read behind the indicator of its style and up to the next line. -/
theorem leads_header (c : Cursor) : Yields (header c) fun r => c.skip.Leads r.2 := by
  rw [header]
  split
  · exact yields_error _
  · next h next hindicators =>
      have hnext : c.skip.Leads next.skipBlanks.skipComment :=
        (((leads_indicators c.mark c.skip).of_ok hindicators).trans
          (leads_skipBlanks next)).trans (leads_skipComment next.skipBlanks)
      dsimp only
      split
      · exact yields_ok (hnext.trans (leads_skipBreak _))
      · exact yields_error _

/-- The empty lines before a block scalar are passed with their blanks. -/
theorem leads_emptyLinesFrom (indent widest breaks : Nat) (m : Mark) (rest : List Char) :
    Yields (emptyLinesFrom indent widest breaks m rest) fun r => Leads ⟨rest, m⟩ r.2.2 := by
  fun_induction emptyLinesFrom indent widest breaks m rest with
  | case1 => exact yields_ok (leads_refl _)
  | case2 widest breaks m r ih => exact ih.mono fun a ha => ha.cons.cons
  | case3 widest breaks m x r _ _ _ ih => exact ih.mono fun a ha => ha.cons
  | case4 => exact yields_error _
  | case5 widest breaks m x r _ _ _ _ _ ih => exact ih.mono fun a ha => ha.cons
  | case6 => exact yields_ok (leads_refl _)

theorem leads_emptyLines (parent : Int) (indent : Nat) (c : Cursor) :
    Yields (emptyLines parent indent c) fun r => c.Leads r.2.2 :=
  (leads_emptyLinesFrom indent 0 0 c.mark c.rest).map fun _ hr => hr

/-- Every round of a block scalar passes its line and the empty ones behind it. -/
theorem leads_content (literal : Bool) (chomping : Chomping) (parent : Int)
    (fuel indent : Nat) (lead blank : Bool) (empty : Nat) (c : Cursor) :
    Yields (content literal chomping parent fuel indent lead blank empty c)
      fun r => c.Leads r.2 := by
  induction fuel generalizing indent lead blank empty c with
  | zero => exact yields_ok (leads_refl c)
  | succ fuel ih =>
      have hline := leads_takeWhile (fun x => !isBreakOrEnd x) c
      rw [content]
      split
      · revert hline
        generalize c.takeWhile (fun x => !isBreakOrEnd x) = taken
        obtain ⟨line, next⟩ := taken
        intro hline
        dsimp only at hline ⊢
        by_cases hend : next.peek = nul
        · rw [if_pos hend]
          exact yields_ok hline
        · rw [if_neg hend]
          split
          · exact yields_error _
          · next indent empty beyond hempty =>
              have hbeyond := (hline.trans (leads_skipBreak next)).trans
                ((leads_emptyLines parent _ next.skipBreak).of_ok hempty)
              exact (ih _ _ _ _ beyond).map fun r hr => hbeyond.trans hr
      · exact yields_ok (leads_refl c)

/-- The mark of the first content is one on the way. -/
theorem leads_scan (literal : Bool) (parent : Int) (c : Cursor) :
    Yields (scan literal parent c) fun r =>
      (∃ first, c.skip.Leads first ∧ first.mark = r.1) ∧ c.skip.Leads r.2.2 := by
  rw [scan]
  split
  · exact yields_error _
  · next h next hheader =>
      have hnext := (leads_header c).of_ok hheader
      dsimp only
      split
      · exact yields_error _
      · next indent empty first hempty =>
          have hfirst := hnext.trans ((leads_emptyLines parent _ next).of_ok hempty)
          apply (leads_content literal h.chomping parent _ indent false false empty first).map
          intro r hr
          exact ⟨⟨first, hfirst, rfl⟩, hfirst.trans hr⟩

end Block

section AnchorsAndTags

/-- The sign of an anchor is passed before its name. -/
theorem leads_anchorName (c : Cursor) : Yields (anchorName c) fun r => c.skip.Leads r.2 := by
  have hname := leads_takeWhile isWord c.skip
  rw [anchorName]
  split
  next name next hnext =>
    rw [hnext] at hname
    split
    · exact yields_error _
    · exact yields_ok hname

namespace Tag

/-- The octets of a character in a URI are passed together. -/
theorem leads_trailingOctets (start : Mark) (n code : Nat) (c : Cursor) :
    Yields (trailingOctets start n code c) fun r => c.Leads r.2 := by
  induction n generalizing code c with
  | zero => exact yields_ok (leads_refl c)
  | succ n ih =>
      rw [trailingOctets]
      split
      · exact yields_error _
      · split
        · exact (ih _ (c.skipN 3)).mono fun r hr => (leads_skipN 3 c).trans hr
        · exact yields_error _

/-- A percent sign is passed with the octets that belong to it. -/
theorem leads_uriEscape (start : Mark) (c : Cursor) :
    Yields (uriEscape start c) fun r => c.skip.Leads r.2 := by
  rw [uriEscape]
  split
  · exact yields_error _
  · split
    · exact yields_error _
    · split
      · exact yields_error _
      · next code next hoctets =>
          split
          · have hfirst : c.skip.Leads (c.skipN 3) := leads_skipN 2 c.skip
            exact yields_ok (hfirst.trans ((leads_trailingOctets start _ _ _).of_ok hoctets))
          · exact yields_error _

/-- A URI runs up to the first character that cannot be part of one. -/
theorem leads_uriFrom (start : Mark) (fuel : Nat) (c : Cursor) :
    Yields (uriFrom start fuel c) fun r => c.Leads r.2 := by
  induction fuel generalizing c with
  | zero => exact yields_ok (leads_refl c)
  | succ fuel ih =>
      rw [uriFrom]
      split
      · exact yields_ok (leads_refl c)
      · split
        · split
          · exact yields_error _
          · next x next hescape =>
              have hnext := (leads_skip c).trans ((leads_uriEscape start c).of_ok hescape)
              exact (ih next).map fun r hr => hnext.trans hr
        · exact (ih c.skip).map fun r hr => (leads_skip c).trans hr

theorem leads_uri (start : Mark) (c : Cursor) : Yields (uri start c) fun r => c.Leads r.2 :=
  leads_uriFrom start _ c

theorem leads_someUri (start : Mark) (c : Cursor) :
    Yields (someUri start c) fun r => c.Leads r.2 := by
  have huri := leads_uri start c
  unfold someUri
  revert huri
  generalize uri start c = read
  intro huri
  split
  · exact yields_error _
  · exact huri

/-- A handle starts with an exclamation mark, which is passed first. -/
theorem leads_handleText (start : Mark) (c : Cursor) :
    Yields (handleText start c) fun r => c.skip.Leads r.2 := by
  have hname := leads_takeWhile isWord c.skip
  rw [handleText]
  split
  · exact yields_error _
  · split
    next name next hnext =>
      rw [hnext] at hname
      split
      · exact yields_ok (hname.trans (leads_skip next))
      · exact yields_ok hname

/-- A shorthand is a handle and a suffix, or a suffix alone. -/
theorem leads_shorthand (start : Mark) (c : Cursor) :
    Yields (shorthand start c) fun r => c.skip.Leads r.2 := by
  rw [shorthand]
  split
  · exact yields_error _
  · next h next hhandle =>
      have hnext := (leads_handleText start c).of_ok hhandle
      split
      · exact (leads_someUri start next).map fun r hr => hnext.trans hr
      · exact (leads_uri start next).map fun r hr => hnext.trans hr

/-- A verbatim tag is passed with its angle brackets. -/
theorem leads_verbatim (start : Mark) (c : Cursor) :
    Yields (verbatim start c) fun r => c.skip.Leads r.2 := by
  have huri := leads_someUri start c.skip.skip
  unfold verbatim
  revert huri
  generalize someUri start c.skip.skip = read
  intro huri
  cases read with
  | error e => exact yields_error e
  | ok r =>
      have hnext := (leads_skip c.skip).trans huri
      dsimp only
      split
      · exact yields_ok (hnext.trans (leads_skip r.2))
      · exact yields_error _

theorem leads_scan (c : Cursor) : Yields (scan c) fun r => c.skip.Leads r.2 := by
  have htag : Yields (if c.ahead 1 = '<' then verbatim c.mark c else shorthand c.mark c)
      fun r => c.skip.Leads r.2 := by
    split
    · exact leads_verbatim c.mark c
    · exact leads_shorthand c.mark c
  rw [scan]
  split
  · exact yields_error _
  · next tag next heq =>
      split
      · exact yields_ok (htag.of_ok heq)
      · exact yields_error _

end Tag

namespace Directive

theorem leads_name (c : Cursor) : Yields (name c) fun r => c.Leads r.2 := by
  have hname := leads_takeWhile isWord c
  rw [name]
  split
  next cs next hnext =>
    rw [hnext] at hname
    split
    · exact yields_error _
    · split
      · exact yields_error _
      · exact yields_ok hname

/-- A version number is a row of digits, which is passed whole. -/
theorem leads_versionNumber (start : Mark) (c : Cursor) :
    Yields (versionNumber start c) fun next => c.Leads next := by
  have hdigits := leads_takeWhile isDigit c
  rw [versionNumber]
  split
  next ds next hnext =>
    rw [hnext] at hdigits
    split
    · exact yields_error _
    · split
      · exact yields_error _
      · exact yields_ok hdigits

theorem leads_version (start : Mark) (c : Cursor) :
    Yields (version start c) fun next => c.Leads next := by
  rw [version]
  split
  · exact yields_error _
  · next next hnumber =>
      have hnext := (leads_skipBlanks c).trans ((leads_versionNumber start _).of_ok hnumber)
      split
      · exact yields_error _
      · exact (leads_versionNumber start next.skip).mono fun r hr =>
          (hnext.trans (leads_skip next)).trans hr

/-- The handle and the prefix of a tag directive are passed with the blanks between them. -/
theorem leads_tagShorthand (start : Mark) (c : Cursor) :
    Yields (tagShorthand start c) fun next => c.Leads next := by
  rw [tagShorthand]
  split
  · exact yields_error _
  · next h next hhandle =>
      have hnext := ((leads_skipBlanks c).trans (leads_skip c.skipBlanks)).trans
        ((Tag.leads_handleText start _).of_ok hhandle)
      split
      · exact yields_error _
      · split
        · exact yields_error _
        · next suffix beyond huri =>
            have hbeyond := (hnext.trans (leads_skipBlanks next)).trans
              ((Tag.leads_someUri start _).of_ok huri)
            split
            · exact yields_ok hbeyond
            · exact yields_error _

/-- A directive with another name has any parameters, up to the end of its line. -/
theorem leads_parameters (start : Mark) (name : List Char) (c : Cursor) :
    Yields (parameters start name c) fun next => c.Leads next := by
  rw [parameters]
  split
  · exact leads_version start c
  · split
    · exact leads_tagShorthand start c
    · exact yields_ok (leads_skipWhile _ c)

theorem leads_scan (c : Cursor) : Yields (scan c) fun next => c.skip.Leads next := by
  rw [scan]
  split
  · exact yields_error _
  · next cs next hname =>
      have hnext := (leads_name c.skip).of_ok hname
      split
      · exact yields_error _
      · next beyond hparameters =>
          have hbeyond := ((hnext.trans ((leads_parameters c.mark cs next).of_ok hparameters)).trans
            (leads_skipBlanks beyond)).trans (leads_skipComment beyond.skipBlanks)
          dsimp only
          split
          · exact yields_ok (hbeyond.trans (leads_skipBreak _))
          · exact yields_error _

end Directive

end AnchorsAndTags

end ManifestForm.Yaml
