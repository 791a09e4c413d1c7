import ManifestForm.Proofs.Yaml.Progress
import ManifestForm.Yaml.Token.Stream
import Mathlib.Data.List.InsertIdx

/-!
# What a construct does

Before the end of the text each construct reads on by at least one character. It puts at most four
tokens into the queue or in store, as ends of block collections, and each stands where the scanner
has been or where a key was thought possible. What holds of tokens and of the number of steps rests
on this alone.
-/

namespace ManifestForm.Yaml

namespace Scanner

/-- The tokens that wait, and those that are to end the open block collections. -/
def held (s : Scanner) : Nat := s.queue.length + s.indents.length

/-- The scanner is at the mark, or it has found there what may be a key. -/
def Knows (s : Scanner) (m : Mark) : Prop :=
  m = s.here ∨ ∃ k ∈ s.keys, k.possible = true ∧ k.mark = m

section Preparing

/-- What is done without reading on: at most `n` tokens are added, at marks that are known. -/
structure Prepares (n : Nat) (s t : Scanner) : Prop where
  cursor : t.cursor = s.cursor
  started : t.started = s.started
  queue : ∀ l ∈ t.queue, l ∈ s.queue ∨ s.Knows l.mark
  keys : ∀ k ∈ t.keys, k.possible = true → k ∈ s.keys ∨ k.mark = s.here
  held : t.held ≤ s.held + n

variable {n n' : Nat} {s t u : Scanner} {m : Mark}

/-- The scanner knows where it stands. -/
theorem knows_here (s : Scanner) : s.Knows s.here := Or.inl rfl

theorem prepares_refl (s : Scanner) : Prepares 0 s s where
  cursor := rfl
  started := rfl
  queue := fun _ hl => Or.inl hl
  keys := fun _ hk _ => Or.inl hk
  held := Nat.le_refl _

theorem Prepares.here (h : Prepares n s t) : t.here = s.here := congrArg Cursor.mark h.cursor

/-- What is known later is known from the start. -/
theorem Prepares.knows (h : Prepares n s t) (hm : t.Knows m) : s.Knows m := by
  rcases hm with rfl | ⟨k, hk, hpossible, rfl⟩
  · exact Or.inl h.here
  · rcases h.keys k hk hpossible with hk | hmark
    · exact Or.inr ⟨k, hk, hpossible, rfl⟩
    · exact Or.inl hmark

/-- Preparations one after the other hold together what each of them adds. -/
theorem Prepares.trans (h : Prepares n s t) (h' : Prepares n' t u) : Prepares (n + n') s u where
  cursor := h'.cursor.trans h.cursor
  started := h'.started.trans h.started
  queue := by
    intro l hl
    rcases h'.queue l hl with hl | hm
    · exact h.queue l hl
    · exact Or.inr (h.knows hm)
  keys := by
    intro k hk hpossible
    rcases h'.keys k hk hpossible with hk | hmark
    · exact h.keys k hk hpossible
    · exact Or.inr (hmark.trans h.here)
  held := by
    have hheld := h.held
    have hheld' := h'.held
    omega

theorem Prepares.allowKey (h : Prepares n s t) (keyAllowed : Bool) :
    Prepares n s { t with keyAllowed } :=
  ⟨h.cursor, h.started, h.queue, h.keys, h.held⟩

/-- A token that is pushed is one more to hold. -/
theorem prepares_push (hm : s.Knows m) (token : Token) : Prepares 1 s (s.push m token) where
  cursor := rfl
  started := rfl
  queue := by
    intro l hl
    rcases List.mem_append.mp hl with hl | hl
    · exact Or.inl hl
    · rw [List.mem_singleton.mp hl]
      exact Or.inr hm
  keys := fun _ hk _ => Or.inl hk
  held := by
    simp only [Scanner.held, push, List.length_append, List.length_singleton]
    omega

theorem prepares_insertAt (number : Nat) (hm : s.Knows m) (token : Token) :
    Prepares 1 s (s.insertAt number m token) where
  cursor := rfl
  started := rfl
  queue := by
    intro l hl
    rcases List.eq_or_mem_of_mem_insertIdx hl with rfl | hl
    · exact Or.inr hm
    · exact Or.inl hl
  keys := fun _ hk _ => Or.inl hk
  held := by
    have hqueue : (s.insertAt number m token).queue.length ≤ s.queue.length + 1 :=
      List.length_insertIdx_le_succ
    have hindents : (s.insertAt number m token).indents = s.indents := rfl
    rw [Scanner.held, Scanner.held, hindents]
    omega

/-- The token that starts a collection, and the one that will end it. -/
theorem prepares_roll (column : Nat) (number : Option Nat) (token : Token) (hm : s.Knows m) :
    Prepares 2 s (s.roll column number token m) := by
  rw [roll]
  split
  · exact ⟨rfl, rfl, fun _ hl => Or.inl hl, fun _ hk _ => Or.inl hk, Nat.le_add_right _ _⟩
  · have hdeeper : Prepares 1 s { s with indents := s.indent :: s.indents, indent := column } := by
      refine ⟨rfl, rfl, fun _ hl => Or.inl hl, fun _ hk _ => Or.inl hk, ?_⟩
      simp only [Scanner.held, List.length_cons]
      omega
    have hknown : Knows { s with indents := s.indent :: s.indents, indent := column } m := hm
    cases number with
    | none => exact hdeeper.trans (prepares_push hknown token)
    | some number => exact hdeeper.trans (prepares_insertAt number hknown token)

/-- All ends of blocks are at the one mark. -/
theorem mark_of_mem_unrollFrom (m : Mark) (column indent : Int) (indents : List Int) :
    ∀ l ∈ (unrollFrom m column indent indents).1, l.mark = m := by
  induction indents generalizing indent with
  | nil => exact List.forall_mem_nil _
  | cons outer more ih =>
      rw [unrollFrom]
      split
      · exact List.forall_mem_cons.mpr ⟨rfl, ih outer⟩
      · exact List.forall_mem_nil _

/-- Each end of a collection is paid for by its indentation. -/
theorem length_unrollFrom (m : Mark) (column indent : Int) (indents : List Int) :
    (unrollFrom m column indent indents).1.length +
      (unrollFrom m column indent indents).2.2.length = indents.length := by
  induction indents generalizing indent with
  | nil => rfl
  | cons outer more ih =>
      rw [unrollFrom]
      split
      · have hmore := ih outer
        simp only [List.length_cons]
        omega
      · exact Nat.zero_add _

/-- Each block that is closed gives a token for its indent. -/
theorem prepares_unroll (column : Int) (s : Scanner) : Prepares 0 s (s.unroll column) := by
  rw [unroll]
  split
  · exact prepares_refl s
  · have hmarks := mark_of_mem_unrollFrom s.here column s.indent s.indents
    have hlength := length_unrollFrom s.here column s.indent s.indents
    revert hmarks hlength
    generalize unrollFrom s.here column s.indent s.indents = unrolled
    obtain ⟨tokens, indent, indents⟩ := unrolled
    intro hmarks hlength
    dsimp only at hmarks hlength ⊢
    refine ⟨rfl, rfl, ?_, fun _ hk _ => Or.inl hk, ?_⟩
    · intro l hl
      rcases List.mem_append.mp hl with hl | hl
      · exact Or.inl hl
      · exact Or.inr (Or.inl (hmarks l hl))
    · simp only [Scanner.held, List.length_append]
      omega

/-- The candidates that are possible have been so before. -/
def Forgets (s t : Scanner) : Prop := ∀ k ∈ t.keys, k.possible = true → k ∈ s.keys

/-- To forget keys is no change to the tokens. -/
theorem Forgets.prepares {keys : List KeyCandidate} (h : Forgets s { s with keys }) :
    Prepares 0 s { s with keys } where
  cursor := rfl
  started := rfl
  queue := fun _ hl => Or.inl hl
  keys := fun k hk hpossible => Or.inl (h k hk hpossible)
  held := Nat.le_refl _

/-- The keys that remain are possible ones that are not stale. -/
theorem fresh_dropStaleKeys (s : Scanner) :
    Yields s.dropStaleKeys fun t =>
      ∀ k ∈ t.keys, k.possible = true → k ∈ s.keys ∧ k.isStale s.here = false := by
  rw [dropStaleKeys]
  split
  · exact yields_error _
  · apply yields_ok
    intro k hk hpossible
    obtain ⟨k₀, hk₀, rfl⟩ := List.mem_map.mp hk
    split at hpossible
    · cases hpossible
    · next hfresh =>
        rw [if_neg hfresh]
        exact ⟨hk₀, Bool.eq_false_iff.mpr hfresh⟩

theorem forgets_dropStaleKeys (s : Scanner) : Yields s.dropStaleKeys (Forgets s) :=
  (fresh_dropStaleKeys s).mono fun _ ht k hk hpossible => (ht k hk hpossible).1

theorem prepares_dropStaleKeys (s : Scanner) : Yields s.dropStaleKeys (Prepares 0 s) := by
  have hforgets := forgets_dropStaleKeys s
  rw [dropStaleKeys] at hforgets ⊢
  split at hforgets
  · next hstale =>
      rw [if_pos hstale]
      exact yields_error _
  · next hstale =>
      rw [if_neg hstale]
      exact yields_ok hforgets.prepares

theorem queue_dropStaleKeys (s : Scanner) :
    Yields s.dropStaleKeys fun t => t.queue = s.queue := by
  rw [dropStaleKeys]
  split
  · exact yields_error _
  · exact yields_ok rfl

/-- A block that is closed takes no new key. -/
theorem forgets_unroll (column : Int) (s : Scanner) : Forgets s (s.unroll column) := by
  rw [unroll]
  split
  · exact fun _ hk _ => hk
  · exact fun _ hk _ => hk

theorem forgets_dropKey (s : Scanner) : Yields s.dropKey (Forgets s) := by
  rw [dropKey]
  split
  · exact yields_ok fun _ hk _ => hk
  · next k ks hkeys =>
      split
      · exact yields_error _
      · apply yields_ok
        intro k' hk' hpossible
        rcases List.mem_cons.mp hk' with rfl | hk'
        · cases hpossible
        · exact hkeys ▸ List.mem_cons_of_mem k hk'

/-- A key that is dropped changes neither tokens nor cursor. -/
theorem prepares_dropKey (s : Scanner) :
    Yields s.dropKey fun t => Prepares 0 s t ∧ t.flow = s.flow := by
  have hforgets := forgets_dropKey s
  rw [dropKey] at hforgets ⊢
  split at hforgets
  · exact yields_ok ⟨prepares_refl s, rfl⟩
  · next k ks hkeys =>
      split at hforgets
      · next habandoned =>
          rw [if_pos habandoned]
          exact yields_error _
      · next habandoned =>
          rw [if_neg habandoned]
          exact yields_ok ⟨hforgets.prepares, rfl⟩

/-- A key that is saved is marked where the scanner stands. -/
theorem prepares_saveKey (s : Scanner) :
    Yields s.saveKey fun t => Prepares 0 s t ∧ t.flow = s.flow := by
  rw [saveKey]
  split
  · apply (prepares_dropKey s).map
    rintro t ⟨ht, hflow⟩
    refine ⟨⟨ht.cursor, ht.started, ht.queue, ?_, ht.held⟩, hflow⟩
    intro k hk hpossible
    rcases List.mem_cons.mp hk with rfl | hk
    · exact Or.inr rfl
    · exact ht.keys k (List.mem_of_mem_drop hk) hpossible
  · exact yields_ok ⟨prepares_refl s, rfl⟩

end Preparing

section Reading

/-- What is done by reading on: at most four tokens are added, at marks that are known or that
have been passed. -/
structure Reads (s t : Scanner) : Prop where
  passes : s.cursor.Passes t.cursor
  started : t.started = s.started
  queue : ∀ l ∈ t.queue, l ∈ s.queue ∨ s.Knows l.mark ∨ ∃ c, s.cursor.Leads c ∧ c.mark = l.mark
  keys : ∀ k ∈ t.keys, k.possible = true → k ∈ s.keys ∨ k.mark = s.here
  held : t.held ≤ s.held + 4

variable {n : Nat} {s t : Scanner}

theorem Reads.allowKey (h : Reads s t) (keyAllowed : Bool) : Reads s { t with keyAllowed } :=
  ⟨h.passes, h.started, h.queue, h.keys, h.held⟩

/-- A token at a mark that has been passed, with the cursor behind it. -/
theorem Prepares.reads (h : Prepares n s t) (hn : n ≤ 3) {first c : Cursor}
    (hfirst : t.cursor.Leads first) (token : Token) (hc : t.cursor.Passes c) :
    Reads s { t.push first.mark token with cursor := c } where
  passes := h.cursor ▸ hc
  started := h.started
  queue := by
    intro l hl
    rcases List.mem_append.mp hl with hl | hl
    · exact (h.queue l hl).imp_right Or.inl
    · rw [List.mem_singleton.mp hl]
      exact Or.inr (Or.inr ⟨first, h.cursor ▸ hfirst, rfl⟩)
  keys := h.keys
  held := by
    have hpush := (prepares_push t.knows_here token).held
    have hheld : ({ t.push first.mark token with cursor := c } : Scanner).held =
        (t.push t.here token).held := by
      simp only [Scanner.held, push, List.length_append, List.length_singleton]
    have hprepares := h.held
    omega

theorem Prepares.readsHere (h : Prepares n s t) (hn : n ≤ 3) (token : Token) {c : Cursor}
    (hc : t.cursor.Passes c) : Reads s { t.push t.here token with cursor := c } :=
  h.reads hn (Cursor.leads_refl t.cursor) token hc

/-- An indicator is one character and one token. -/
theorem Prepares.single (h : Prepares n s t) (hn : n ≤ 3) (hpeek : s.cursor.peek ≠ nul)
    (token : Token) : Reads s (t.single token) := by
  rw [← h.cursor] at hpeek
  exact h.readsHere hn token (Cursor.passes_skip hpeek)

end Reading

section Constructs

variable {s : Scanner}

/-- A directive closes all blocks before it is read. -/
theorem reads_directive (hpeek : s.cursor.peek ≠ nul) : Yields s.directive (Reads s) := by
  rw [directive]
  apply (prepares_dropKey _).bind
  rintro t ⟨ht, -⟩
  have hprepares := (prepares_unroll (-1) s).trans ht
  apply (Directive.leads_scan t.cursor).bind
  intro c hc
  have hpasses : t.cursor.Passes c :=
    ⟨Cursor.rest_ne_nil_of_peek (hprepares.cursor ▸ hpeek), hc⟩
  exact yields_ok ((hprepares.readsHere (by decide) .directive hpasses).allowKey false)

theorem reads_documentMark (hpeek : s.cursor.peek ≠ nul) (token : Token) :
    Yields (s.documentMark token) (Reads s) := by
  rw [documentMark]
  apply (prepares_dropKey _).bind
  rintro t ⟨ht, -⟩
  have hprepares := (prepares_unroll (-1) s).trans ht
  have hpasses : t.cursor.Passes (t.cursor.skipN 3) :=
    ⟨Cursor.rest_ne_nil_of_peek (hprepares.cursor ▸ hpeek), Cursor.leads_skipN 2 t.cursor.skip⟩
  exact yields_ok ((hprepares.readsHere (by decide) token hpasses).allowKey false)

theorem reads_flowStart (hpeek : s.cursor.peek ≠ nul) (token : Token) :
    Yields (s.flowStart token) (Reads s) := by
  rw [flowStart]
  apply (prepares_saveKey s).bind
  rintro t ⟨ht, -⟩
  split
  · exact yields_error _
  · have hinner : Prepares 0 s { t with keys := .none :: t.keys, flow := t.flow + 1 } := by
      refine ⟨ht.cursor, ht.started, ht.queue, ?_, ht.held⟩
      intro k hk hpossible
      rcases List.mem_cons.mp hk with rfl | hk
      · cases hpossible
      · exact ht.keys k hk hpossible
    exact yields_ok ((hinner.allowKey true).single (by decide) hpeek token)

/-- A closing bracket ends one level of the flow. -/
theorem reads_flowEnd (hpeek : s.cursor.peek ≠ nul) (token : Token) :
    Yields (s.flowEnd token) (Reads s) := by
  rw [flowEnd]
  apply (prepares_dropKey s).bind
  rintro t ⟨ht, -⟩
  split
  · have houter : Prepares 0 s { t with flow := t.flow - 1, keys := t.keys.drop 1 } := by
      refine ⟨ht.cursor, ht.started, ht.queue, ?_, ht.held⟩
      intro k hk
      exact ht.keys k (List.mem_of_mem_drop hk)
    exact yields_ok ((houter.allowKey false).single (by decide) hpeek token)
  · exact yields_ok ((ht.allowKey false).single (by decide) hpeek token)

theorem reads_flowEntry (hpeek : s.cursor.peek ≠ nul) : Yields s.flowEntry (Reads s) := by
  rw [flowEntry]
  apply (prepares_dropKey s).bind
  rintro t ⟨ht, -⟩
  exact yields_ok ((ht.allowKey true).single (by decide) hpeek .flowEntry)

/-- A dash may open a block sequence before its entry. -/
theorem reads_blockEntry (hpeek : s.cursor.peek ≠ nul) : Yields s.blockEntry (Reads s) := by
  rw [blockEntry]
  split
  · exact yields_error _
  · split
    · exact yields_error _
    · have hrolled := prepares_roll s.here.column none .blockSequenceStart s.knows_here
      apply (prepares_dropKey _).bind
      rintro t ⟨ht, -⟩
      exact yields_ok
        (((hrolled.trans ht).allowKey true).single (by decide) hpeek .blockEntry)

/-- A question mark may open a block mapping before its key. -/
theorem reads_explicitKey (hpeek : s.cursor.peek ≠ nul) : Yields s.explicitKey (Reads s) := by
  rw [explicitKey]
  split
  · exact yields_error _
  · have hrolled := prepares_roll s.here.column none .blockMappingStart s.knows_here
    apply (prepares_dropKey _).bind
    rintro t ⟨ht, -⟩
    exact yields_ok (((hrolled.trans ht).allowKey (t.flow = 0)).single (by decide) hpeek .key)

theorem reads_noKey (hpeek : s.cursor.peek ≠ nul) : Yields (value.noKey s) (Reads s) := by
  rw [value.noKey]
  split
  · exact yields_error _
  · have hrolled := prepares_roll s.here.column none .blockMappingStart s.knows_here
    exact yields_ok ((hrolled.allowKey _).single (by decide) hpeek .value)

/-- The key and the start of a mapping are put in where the candidate was found and where the
colon stands. -/
theorem reads_value (hpeek : s.cursor.peek ≠ nul) : Yields s.value (Reads s) := by
  rw [value]
  split
  · next k ks hkeys =>
      split
      · next hpossible =>
          have hkey : k ∈ s.keys := hkeys ▸ List.mem_cons_self
          have hinserted := prepares_insertAt k.number (Or.inr ⟨k, hkey, hpossible, rfl⟩) .key
          have hrolled := hinserted.trans
            (prepares_roll k.mark.column (some k.number) .blockMappingStart (knows_here _))
          refine yields_ok (Prepares.single ?_ (Nat.le_refl 3) hpeek .value)
          refine ⟨hrolled.cursor, hrolled.started, hrolled.queue, ?_, hrolled.held⟩
          intro k' hk' hpossible'
          rcases List.mem_cons.mp hk' with rfl | hk'
          · cases hpossible'
          · exact Or.inl (hkeys ▸ List.mem_cons_of_mem k hk')
      · exact reads_noKey hpeek
  · exact reads_noKey hpeek

theorem reads_anchor (hpeek : s.cursor.peek ≠ nul) (token : String → Token) :
    Yields (s.anchor token) (Reads s) := by
  rw [anchor]
  apply (prepares_saveKey s).bind
  rintro t ⟨ht, -⟩
  apply (leads_anchorName t.cursor).bind
  rintro ⟨name, c⟩ hc
  have hpasses : t.cursor.Passes c := ⟨Cursor.rest_ne_nil_of_peek (ht.cursor ▸ hpeek), hc⟩
  exact yields_ok ((ht.readsHere (by decide) (token name) hpasses).allowKey false)

theorem reads_tag (hpeek : s.cursor.peek ≠ nul) : Yields s.tag (Reads s) := by
  rw [tag]
  apply (prepares_saveKey s).bind
  rintro t ⟨ht, -⟩
  apply (Tag.leads_scan t.cursor).bind
  rintro ⟨tag, c⟩ hc
  have hpasses : t.cursor.Passes c := ⟨Cursor.rest_ne_nil_of_peek (ht.cursor ▸ hpeek), hc⟩
  exact yields_ok ((ht.readsHere (by decide) (.tag tag) hpasses).allowKey false)

/-- A block scalar stands where its first line of content starts. -/
theorem reads_blockScalar (hpeek : s.cursor.peek ≠ nul) (literal : Bool) :
    Yields (s.blockScalar literal) (Reads s) := by
  rw [blockScalar]
  apply (prepares_saveKey s).bind
  rintro t ⟨ht, -⟩
  apply (Block.leads_scan literal t.indent t.cursor).bind
  rintro ⟨m, content, c⟩ ⟨⟨first, hfirst, rfl⟩, hc⟩
  have hpasses : t.cursor.Passes c := ⟨Cursor.rest_ne_nil_of_peek (ht.cursor ▸ hpeek), hc⟩
  have hleads : t.cursor.Leads first := (Cursor.leads_skip t.cursor).trans hfirst
  exact yields_ok ((ht.reads (by decide) hleads _ hpasses).allowKey true)

theorem reads_quotedScalar (hpeek : s.cursor.peek ≠ nul) (single : Bool) :
    Yields (s.quotedScalar single) (Reads s) := by
  rw [quotedScalar]
  apply (prepares_saveKey s).bind
  rintro t ⟨ht, -⟩
  apply (Quoted.leads_scan single t.cursor).bind
  rintro ⟨content, c⟩ hc
  have hpasses : t.cursor.Passes c := ⟨Cursor.rest_ne_nil_of_peek (ht.cursor ▸ hpeek), hc⟩
  have hreads := ht.readsHere (by decide)
    (.scalar (if single then .singleQuoted else .doubleQuoted) (String.ofList content)) hpasses
  exact yields_ok ⟨hreads.passes, hreads.started, hreads.queue, hreads.keys, hreads.held⟩

/-- A plain scalar has a character at least. -/
theorem reads_plainScalar (hstarts : Plain.Starts (0 < s.flow) s.cursor) :
    Yields s.plainScalar (Reads s) := by
  rw [plainScalar]
  apply (prepares_saveKey s).bind
  rintro t ⟨ht, hflow⟩
  rw [← hflow, ← ht.cursor] at hstarts
  apply (hstarts.passes_scan _).bind
  rintro ⟨content, broken, c⟩ hpasses
  exact yields_ok ((ht.readsHere (by decide) _ hpasses).allowKey broken)

/-- One construct, whichever it is. What no other construct takes starts a plain scalar. -/
theorem reads_construct (hpeek : s.cursor.peek ≠ nul) (hcomment : s.cursor.peek ≠ '#') :
    Yields s.construct (Reads s) := by
  rw [construct]
  rw [if_neg hpeek]
  refine yields_ite_of (fun _ => reads_directive hpeek) fun _ => ?_
  refine yields_ite_of (fun _ => reads_documentMark hpeek _) fun hstart => ?_
  refine yields_ite_of (fun _ => reads_documentMark hpeek _) fun hstop => ?_
  refine yields_ite_of (fun _ => reads_flowStart hpeek _) fun hbracket => ?_
  refine yields_ite_of (fun _ => reads_flowStart hpeek _) fun hbrace => ?_
  refine yields_ite_of (fun _ => reads_flowEnd hpeek _) fun hbracket' => ?_
  refine yields_ite_of (fun _ => reads_flowEnd hpeek _) fun hbrace' => ?_
  refine yields_ite_of (fun _ => reads_flowEntry hpeek) fun hcomma => ?_
  refine yields_ite_of (fun _ => reads_blockEntry hpeek) fun _ => ?_
  refine yields_ite_of (fun _ => reads_explicitKey hpeek) fun _ => ?_
  refine yields_ite_of (fun _ => reads_value hpeek) fun hcolon => ?_
  refine yields_ite_of (fun _ => reads_anchor hpeek _) fun _ => ?_
  refine yields_ite_of (fun _ => reads_anchor hpeek _) fun _ => ?_
  refine yields_ite_of (fun _ => reads_tag hpeek) fun _ => ?_
  refine yields_ite_of (fun _ => reads_blockScalar hpeek _) fun _ => ?_
  refine yields_ite_of (fun _ => reads_blockScalar hpeek _) fun _ => ?_
  refine yields_ite_of (fun _ => reads_quotedScalar hpeek _) fun _ => ?_
  refine yields_ite_of (fun _ => reads_quotedScalar hpeek _) fun _ => ?_
  refine yields_ite_of (fun _ => yields_error _) fun _ => reads_plainScalar ?_
  constructor
  · rw [Cursor.atDocumentMark, Bool.and_or_distrib_left]
    exact Bool.or_eq_false_iff.mpr ⟨Bool.eq_false_iff.mpr hstart, Bool.eq_false_iff.mpr hstop⟩
  · exact hpeek
  · exact hcomment
  · simp [isFlow, hbracket, hbracket', hbrace, hbrace', hcomma]
  · rw [Bool.eq_false_iff]
    intro hvalue
    apply hcolon
    simp only [atValue, Bool.and_eq_true, Bool.or_eq_true] at hvalue ⊢
    exact hvalue.imp_right (Or.imp_right (And.imp_right Or.inl))

end Constructs

end Scanner

end ManifestForm.Yaml
