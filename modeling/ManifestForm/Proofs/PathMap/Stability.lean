import ManifestForm.Proofs.Json.Object
import ManifestForm.Proofs.PathMap.Places

/-!
# Notices in any order

Nothing makes sure that the notices of a path map come from a tree: nodes may close that have never
opened, and others may stay open. Whatever comes, a closing collection has only fragments below its
own path, so no handler reaches beyond the end of a path. Entries stay where they are, the root
stays at the first opening, and other entries only move to lesser offsets, unless a text that closes
with no node open around it is recorded anew.
-/

namespace ManifestForm.PathMap

section Handlers

/-- What follows the first `k` segments of a path, unless it has fewer. -/
def sliceFrom? (k : Nat) (p : Path) : Option Path :=
  if k ≤ p.length then some (p.drop k) else none

/-- The difference of two numbers, unless the second is the greater one. -/
def minus? (a b : Nat) : Option Nat :=
  if b ≤ a then some (a - b) else none

/-- Fragments with their paths behind the first `k` segments. -/
def entryParts? (k : Nat) : List Fragment → Option (List (Path × Path × Fragment))
  | [] => some []
  | f :: fs => do
    let p ← sliceFrom? k f.path
    let parts ← entryParts? k fs
    return (f.path, p, f) :: parts

/-- Items that come last to first, with their numbers. There are `count` of them, and `i` have been
numbered. -/
def numbered? (count : Nat) : Nat → List Fragment → Option (List (String × Fragment))
  | _, [] => some []
  | i, f :: fs => do
    let last ← minus? count 1
    let number ← minus? last i
    let rest ← numbered? count (i + 1) fs
    return (toString number, f) :: rest

/-- The slices are checked at the root too, where no path is cut. -/
def closeMapping? (l : Location) (m : PathMap) : Option PathMap := do
  let parts ← entryParts? m.path.length (dropValues true m.takeBelow.1)
  return m.closeWith parts m.takeBelow.2 l

def closeSequence? (l : Location) (m : PathMap) : Option PathMap := do
  let items := distinctOffsets [] m.takeBelow.1
  let parts ← numbered? items.length 0 items
  return m.closeWith (parts.map fun (n, f) => (m.path ++ [n], [n], f)) m.takeBelow.2 l

/-- Takes notice, unless a slice or a difference on the way is out of range. -/
def record? (m : PathMap) (n : Notice) : Option PathMap :=
  match n.phase with
  | .opening => some (m.openNode n.location)
  | .closing =>
    let opened := m.opened.headD n.location
    let m := { m with opened := m.opened.drop 1 }
    match n.kind with
    | .scalar text => some (m.closeScalar text n.location)
    | .mapping => m.closeMapping? opened
    | .sequence => m.closeSequence? opened

/-- Notices recorded by the handlers that check their bounds. -/
def recordAll? (m : PathMap) (ns : List Notice) : Option PathMap := ns.foldlM record? m

/-- No path is cut beyond its end. -/
theorem entryParts?_eq {k : Nat} {fs : List Fragment} (h : ∀ f ∈ fs, k ≤ f.path.length) :
    entryParts? k fs = some (fs.map fun f => (f.path, f.path.drop k, f)) := by
  induction fs with
  | nil => rfl
  | cons f fs ih =>
      obtain ⟨hf, hfs⟩ := List.forall_mem_cons.mp h
      rw [entryParts?, sliceFrom?, if_pos hf, ih hfs]
      rfl

/-- The last of the items to be numbered has the number 0. -/
theorem numbered?_eq {count i : Nat} {fs : List Fragment} (h : i + fs.length = count) :
    numbered? count i fs = some (numbered fs) := by
  induction fs generalizing i with
  | nil => rfl
  | cons f fs ih =>
      rw [List.length_cons] at h
      have hlast : minus? count 1 = some (count - 1) := if_pos (by omega)
      have hnumber : minus? (count - 1) i = some fs.length := by
        rw [minus?, if_pos (by omega), Option.some.injEq]
        omega
      simp [numbered?, hlast, hnumber, ih (show i + 1 + fs.length = count by omega), numbered]

theorem isBelow_of_mem_takeBelow {m : PathMap} {f : Fragment} (h : f ∈ m.takeBelow.1) :
    f.isBelow m.path = true := by
  rw [takeBelow, List.partition_eq_filter_filter] at h
  exact List.of_mem_filter (List.mem_reverse.mp h)

/-- A path below another one goes on from it. -/
theorem exists_of_isBelow {parent : Path} {f : Fragment} (h : f.isBelow parent = true) :
    ∃ p, p ≠ [] ∧ f.path = parent ++ p := by
  rw [Fragment.isBelow, Bool.and_eq_true, decide_eq_true_eq, List.isPrefixOf_iff_prefix] at h
  obtain ⟨hlength, p, hp⟩ := h
  refine ⟨p, ?_, hp.symm⟩
  rintro rfl
  rw [List.append_nil] at hp
  exact absurd hlength (hp ▸ Nat.lt_irrefl _)

theorem closeMapping?_eq (l : Location) (m : PathMap) :
    m.closeMapping? l = some (m.closeMapping l) := by
  have hlength : ∀ f ∈ dropValues true m.takeBelow.1, m.path.length ≤ f.path.length := by
    intro f hf
    obtain ⟨p, -, hp⟩ := exists_of_isBelow (isBelow_of_mem_takeBelow (mem_of_mem_dropValues hf))
    rw [hp, List.length_append]
    exact Nat.le_add_right _ _
  rw [closeMapping?, entryParts?_eq hlength]
  rfl

theorem closeSequence?_eq (l : Location) (m : PathMap) :
    m.closeSequence? l = some (m.closeSequence l) := by
  rw [closeSequence?, numbered?_eq (Nat.zero_add _)]
  rfl

/-- No notice makes a handler that checks its bounds fail. -/
theorem record?_eq (m : PathMap) (n : Notice) : m.record? n = some (m.record n) := by
  obtain ⟨phase, kind, l⟩ := n
  cases phase with
  | opening => rfl
  | closing =>
      cases kind with
      | scalar text => rfl
      | mapping => exact closeMapping?_eq ..
      | sequence => exact closeSequence?_eq ..

/-- Nothing is out of range, in whatever state the notices come. -/
theorem recordAll?_eq (m : PathMap) (ns : List Notice) :
    m.recordAll? ns = some (m.recordAll ns) := by
  induction ns generalizing m with
  | nil => rfl
  | cons n ns ih =>
      rw [recordAll?, List.foldlM_cons, record?_eq]
      exact ih (m.record n)

end Handlers

namespace Entries

/-- A location is put in where lowering would record it. -/
theorem paths_put (p : Path) (l : Location) (es : Entries) :
    (es.put p l).paths = (es.lower p l).paths := by
  induction es with
  | nil => rfl
  | cons e es ih =>
      obtain ⟨q, m⟩ := e
      rw [put, lower]
      split
      · rfl
      · rw [paths_cons, paths_cons, ih]

theorem lookup_put (p q : Path) (l : Location) (es : Entries) :
    (es.put p l).lookup q = if q = p then some l else es.lookup q := by
  induction es with
  | nil => rw [put, lookup_cons_eq_ite]
  | cons e es ih =>
      obtain ⟨r, m⟩ := e
      rw [put]
      by_cases hr : r = p
      · subst hr
        rw [if_pos rfl, lookup_cons_eq_ite, lookup_cons_eq_ite]
        split <;> rfl
      · rw [if_neg hr, lookup_cons_eq_ite, lookup_cons_eq_ite, ih]
        by_cases hq : q = r
        · rw [if_pos hq, if_neg (hq ▸ hr), if_pos hq]
        · rw [if_neg hq, if_neg hq]

/-- Lowering a path concerns no other one. -/
theorem lookup_lower_of_ne {p q : Path} (h : q ≠ p) (l : Location) (es : Entries) :
    (es.lower p l).lookup q = es.lookup q := by
  induction es with
  | nil => rw [lower, lookup_cons_eq_ite, if_neg h]
  | cons e es ih =>
      obtain ⟨r, m⟩ := e
      rw [lower]
      by_cases hr : r = p
      · subst hr
        rw [if_pos rfl, lookup_cons_eq_ite, lookup_cons_eq_ite, if_neg h, if_neg h]
      · rw [if_neg hr, lookup_cons_eq_ite, lookup_cons_eq_ite, ih]

/-- Lowering an entry does not make any offset greater. -/
theorem exists_lookup_lower {q : Path} {old : Location} {es : Entries}
    (h : es.lookup q = some old) (p : Path) (l : Location) :
    ∃ new, (es.lower p l).lookup q = some new ∧ new.offset ≤ old.offset := by
  by_cases hqp : q = p
  · subst hqp
    induction es with
    | nil => cases h
    | cons e es ih =>
        obtain ⟨r, m⟩ := e
        rw [lookup_cons_eq_ite] at h
        by_cases hr : r = q
        · rw [if_pos hr.symm, Option.some.injEq] at h
          subst h
          refine ⟨if l.offset < m.offset then l else m, ?_, ?_⟩
          · rw [lower, if_pos hr, lookup_cons_eq_ite, if_pos hr.symm]
          · split <;> omega
        · rw [if_neg (Ne.symm hr)] at h
          obtain ⟨new, hnew, hle⟩ := ih h
          refine ⟨new, ?_, hle⟩
          rw [lower, if_neg hr, lookup_cons_eq_ite, if_neg (Ne.symm hr), hnew]
  · exact ⟨old, by rw [lookup_lower_of_ne hqp, h], Nat.le_refl _⟩

theorem lookup_lowerAll_of_ne {q : Path} {ps : List (Path × Location)}
    (h : ∀ e ∈ ps, e.1 ≠ q) (es : Entries) : (es.lowerAll ps).lookup q = es.lookup q := by
  induction ps generalizing es with
  | nil => rfl
  | cons e ps ih =>
      obtain ⟨he, hps⟩ := List.forall_mem_cons.mp h
      rw [lowerAll_cons, ih hps, lookup_lower_of_ne he.symm]

/-- Lowering never raises an offset. -/
theorem exists_lookup_lowerAll {q : Path} {old : Location} {es : Entries}
    (h : es.lookup q = some old) (ps : List (Path × Location)) :
    ∃ new, (es.lowerAll ps).lookup q = some new ∧ new.offset ≤ old.offset := by
  induction ps generalizing es old with
  | nil => exact ⟨old, h, Nat.le_refl _⟩
  | cons e ps ih =>
      obtain ⟨mid, hmid, hle⟩ := exists_lookup_lower h e.1 e.2
      obtain ⟨new, hnew, hle'⟩ := ih hmid
      exact ⟨new, hnew, Nat.le_trans hle' hle⟩

theorem nodup_lowerAll (ps : List (Path × Location)) {es : Entries} (h : es.paths.Nodup) :
    (es.lowerAll ps).paths.Nodup := by
  induction ps generalizing es with
  | nil => exact h
  | cons e ps ih => exact ih (nodup_lower e.1 e.2 h)

end Entries

section SingleNotices

mutual
theorem Fragment.prefix_of_mem_places {p q : Path} {l : Location} :
    (f : Fragment) → (q, l) ∈ f.places p → p <+: q
  | .mk r m children, h => by
      rw [Fragment.places, List.mem_cons, Prod.mk.injEq] at h
      rcases h with ⟨rfl, -⟩ | h
      · exact List.prefix_rfl
      · exact Fragment.prefix_of_mem_placesAll children h

theorem Fragment.prefix_of_mem_placesAll {p q : Path} {l : Location} :
    (fs : List Fragment) → (q, l) ∈ Fragment.places.placesAll p fs → p <+: q
  | [], h => absurd h List.not_mem_nil
  | .mk r m cs :: rest, h => by
      rw [Fragment.places.placesAll, List.mem_append] at h
      rcases h with h | h
      · exact (List.prefix_append p r).trans (Fragment.prefix_of_mem_places (.mk r m cs) h)
      · exact Fragment.prefix_of_mem_placesAll rest h
end

/-- The entries after a notice. The first opening records the root, and a text records itself if no
node is open around it. All other paths that are recorded go on from the root. -/
inductive Records (m : PathMap) (n : Notice) : Entries → Prop
  | root (hn : n.phase = .opening) (hm : m.begun = false) :
      Records m n (m.entries.put [] n.location)
  | text {text : String} (hn : n.phase = .closing) (hkind : n.kind = .scalar text)
      (hpath : (m.record n).path = []) : Records m n (m.entries.put [text] n.location)
  | lowered {ps : List (Path × Location)} (hn : n.phase = .opening → m.begun = true)
      (hps : ∀ e ∈ ps, e.1 ≠ []) : Records m n (m.entries.lowerAll ps)

theorem Records.of_closing {m : PathMap} {n : Notice} {ps : List (Path × Location)}
    (hn : n.phase = .closing) (hps : ∀ e ∈ ps, e.1 ≠ []) :
    m.Records n (m.entries.lowerAll ps) := by
  refine .lowered (fun hopening => ?_) hps
  rw [hn] at hopening
  cases hopening

/-- Parts below the path of a collection are lowered at paths below the root. -/
theorem exists_entries_closeWith {m : PathMap} {parts : List (Path × Path × Fragment)}
    (hparts : ∀ e ∈ parts, e.1 = m.path ++ e.2.1 ∧ e.2.1 ≠ []) (others : List Fragment)
    (l : Location) :
    ∃ ps, (m.closeWith parts others l).entries = m.entries.lowerAll ps ∧ ∀ e ∈ ps, e.1 ≠ [] := by
  by_cases hlength : m.path.length = 1
  · obtain ⟨root, hroot⟩ := List.length_eq_one_iff.mp hlength
    refine ⟨Fragment.places.placesAll [] (childrenOf parts), ?_, ?_⟩
    · rw [closeWith_root root parts others l hroot fun e he => by rw [(hparts e he).1, hroot]; rfl]
    · rintro ⟨q, k⟩ hq rfl
      obtain ⟨e, he, hmem⟩ := mem_placesAll_childrenOf_iff.mp hq
      exact (hparts e he).2 (List.prefix_nil.mp (Fragment.prefix_of_mem_places _ hmem))
  · exact ⟨[], by rw [closeWith_inner parts others l hlength]; rfl, List.forall_mem_nil _⟩

theorem exists_entries_closeMapping (l : Location) (m : PathMap) :
    ∃ ps, (m.closeMapping l).entries = m.entries.lowerAll ps ∧ ∀ e ∈ ps, e.1 ≠ [] := by
  refine exists_entries_closeWith (fun e he => ?_) _ l
  obtain ⟨f, hf, rfl⟩ := List.mem_map.mp he
  obtain ⟨p, hne, hp⟩ := exists_of_isBelow (isBelow_of_mem_takeBelow (mem_of_mem_dropValues hf))
  simp [hp, hne]

theorem exists_entries_closeSequence (l : Location) (m : PathMap) :
    ∃ ps, (m.closeSequence l).entries = m.entries.lowerAll ps ∧ ∀ e ∈ ps, e.1 ≠ [] := by
  refine exists_entries_closeWith (fun e he => ?_) _ l
  obtain ⟨⟨name, f⟩, -, rfl⟩ := List.mem_map.mp he
  simp

/-- What a notice does to the entries is one of the cases. -/
theorem records_record (m : PathMap) (n : Notice) : m.Records n (m.record n).entries := by
  obtain ⟨phase, kind, l⟩ := n
  cases phase with
  | opening =>
      cases hm : m.begun with
      | false =>
          have hentries : (m.record ⟨.opening, kind, l⟩).entries = m.entries.put [] l := by
            simp [record, openNode, hm]
          exact hentries ▸ .root rfl hm
      | true =>
          have hentries : (m.record ⟨.opening, kind, l⟩).entries = m.entries.lowerAll [] := by
            simp [record, openNode, hm]
          exact hentries ▸ .lowered (fun _ => hm) (List.forall_mem_nil _)
  | closing =>
      cases kind with
      | scalar text =>
          by_cases hpath : m.path.dropLast = []
          · have hentries : (m.record ⟨.closing, .scalar text, l⟩).entries =
                m.entries.put [text] l := by
              simp [record, closeScalar, hpath]
            exact hentries ▸ .text rfl rfl (by simp [record, closeScalar, hpath])
          · have hentries : (m.record ⟨.closing, .scalar text, l⟩).entries =
                m.entries.lowerAll [] := by
              simp [record, closeScalar, hpath]
            exact hentries ▸ .of_closing rfl (List.forall_mem_nil _)
      | mapping =>
          obtain ⟨ps, hentries, hps⟩ := exists_entries_closeMapping (m.opened.headD l)
            { m with opened := m.opened.drop 1 }
          have hentries : (m.record ⟨.closing, .mapping, l⟩).entries = m.entries.lowerAll ps :=
            hentries
          exact hentries ▸ .of_closing rfl hps
      | sequence =>
          obtain ⟨ps, hentries, hps⟩ := exists_entries_closeSequence (m.opened.headD l)
            { m with opened := m.opened.drop 1 }
          have hentries : (m.record ⟨.closing, .sequence, l⟩).entries = m.entries.lowerAll ps :=
            hentries
          exact hentries ▸ .of_closing rfl hps

/-- A recording has begun with the first opening. -/
theorem begun_record (m : PathMap) (n : Notice) :
    (m.record n).begun = (m.begun || decide (n.phase = .opening)) := by
  obtain ⟨phase, kind, l⟩ := n
  cases phase with
  | opening => simp [record, openNode]
  | closing =>
      cases kind with
      | scalar text => simp only [record, closeScalar]; split <;> simp
      | mapping => simp only [record, closeMapping, closeWith]; split <;> simp
      | sequence => simp only [record, closeSequence, closeWith]; split <;> simp

/-- The text of a closing scalar is recorded anew: no node is open around it. -/
def Rewrites (m : PathMap) (n : Notice) (p : Path) : Prop :=
  ∃ text, n.phase = .closing ∧ n.kind = .scalar text ∧ (m.record n).path = [] ∧ p = [text]

/-- Every path has one entry, and the root has one since the first opening. -/
structure Sound (m : PathMap) : Prop where
  nodup : m.entries.paths.Nodup
  begun : m.begun = (m.entries.lookup []).isSome

/-- The paths are those of lowered entries, also if an entry is rewritten. -/
theorem exists_paths_record (m : PathMap) (n : Notice) :
    ∃ ps, (m.record n).entries.paths = (m.entries.lowerAll ps).paths := by
  have hrecords := records_record m n
  generalize (m.record n).entries = es at hrecords ⊢
  cases hrecords with
  | root => exact ⟨[([], n.location)], Entries.paths_put ..⟩
  | @text text => exact ⟨[([text], n.location)], Entries.paths_put ..⟩
  | @lowered ps => exact ⟨ps, rfl⟩

/-- No path that is recorded is lost or moved. -/
theorem paths_prefix_record (m : PathMap) (n : Notice) :
    m.entries.paths <+: (m.record n).entries.paths := by
  obtain ⟨ps, hps⟩ := exists_paths_record m n
  exact hps ▸ Entries.paths_prefix_lowerAll ps m.entries

theorem nodup_record {m : PathMap} (hm : m.entries.paths.Nodup) (n : Notice) :
    (m.record n).entries.paths.Nodup := by
  obtain ⟨ps, hps⟩ := exists_paths_record m n
  exact hps ▸ Entries.nodup_lowerAll ps hm

/-- The root is recorded by the first opening and stays. -/
theorem lookup_nil_record {m : PathMap} (hm : m.Sound) (n : Notice) :
    (m.record n).entries.lookup [] =
      (m.entries.lookup []).or (if n.phase = .opening then some n.location else none) := by
  have hrecords := records_record m n
  generalize (m.record n).entries = es at hrecords ⊢
  cases hrecords with
  | root hn hbegun =>
      have hnone : m.entries.lookup [] = none := by simpa [hbegun] using hm.begun
      rw [Entries.lookup_put, if_pos rfl, hnone, if_pos hn, Option.none_or]
  | text hn =>
      rw [Entries.lookup_put, if_neg (List.cons_ne_nil _ _).symm, hn, if_neg (by simp),
        Option.or_none]
  | lowered hn hps =>
      rw [Entries.lookup_lowerAll_of_ne hps]
      split
      · next hopening =>
          obtain ⟨l, hl⟩ := Option.isSome_iff_exists.mp (hm.begun.symm.trans (hn hopening))
          rw [hl, Option.some_or]
      · rw [Option.or_none]

theorem sound_empty : empty.Sound := ⟨List.nodup_nil, rfl⟩

/-- A notice leaves a sound state sound. -/
theorem Sound.record {m : PathMap} (hm : m.Sound) (n : Notice) : (m.record n).Sound where
  nodup := nodup_record hm.nodup n
  begun := by
    rw [begun_record, lookup_nil_record hm, Option.isSome_or, hm.begun]
    split
    · next hn => simp [hn]
    · next hn => simp [hn]

/-- An entry keeps its offset or gets a lesser one, unless it is rewritten. -/
theorem exists_lookup_record {m : PathMap} (hm : m.Sound) (n : Notice) {p : Path} {l : Location}
    (hp : m.entries.lookup p = some l) :
    ∃ l', (m.record n).entries.lookup p = some l' ∧ (l'.offset ≤ l.offset ∨ m.Rewrites n p) := by
  have hrecords := records_record m n
  generalize (m.record n).entries = es at hrecords ⊢
  cases hrecords with
  | root hn hbegun =>
      -- Before the first opening the root has no entry that could be overwritten.
      have hroot : p ≠ [] := by
        rintro rfl
        simpa [hbegun, hp] using hm.begun
      exact ⟨l, by rw [Entries.lookup_put, if_neg hroot, hp], Or.inl (Nat.le_refl _)⟩
  | @text text hn hkind hpath =>
      by_cases htext : p = [text]
      · exact ⟨n.location, by rw [Entries.lookup_put, if_pos htext],
          Or.inr ⟨text, hn, hkind, hpath, htext⟩⟩
      · exact ⟨l, by rw [Entries.lookup_put, if_neg htext, hp], Or.inl (Nat.le_refl _)⟩
  | lowered =>
      obtain ⟨l', hl', hle⟩ := Entries.exists_lookup_lowerAll hp _
      exact ⟨l', hl', Or.inl hle⟩

end SingleNotices

section ManyNotices

/-- The place of the first notice of an opening. -/
def firstOpening (ns : List Notice) : Option Location :=
  (ns.find? fun n => n.phase = .opening).map (·.location)

theorem firstOpening_cons (n : Notice) (ns : List Notice) :
    firstOpening (n :: ns) =
      (if n.phase = .opening then some n.location else none).or (firstOpening ns) := by
  rw [firstOpening, List.find?_cons]
  by_cases hn : n.phase = .opening <;> simp [hn, firstOpening]

theorem Sound.recordAll {m : PathMap} (hm : m.Sound) (ns : List Notice) :
    (m.recordAll ns).Sound := by
  induction ns generalizing m with
  | nil => exact hm
  | cons n ns ih => exact ih (hm.record n)

theorem paths_prefix_recordAll (m : PathMap) (ns : List Notice) :
    m.entries.paths <+: (m.recordAll ns).entries.paths := by
  induction ns generalizing m with
  | nil => exact List.prefix_rfl
  | cons n ns ih => exact (paths_prefix_record m n).trans (ih (m.record n))

/-- The root is at the first opening. -/
theorem lookup_nil_recordAll {m : PathMap} (hm : m.Sound) (ns : List Notice) :
    (m.recordAll ns).entries.lookup [] = (m.entries.lookup []).or (firstOpening ns) := by
  induction ns generalizing m with
  | nil => exact (Option.or_none).symm
  | cons n ns ih =>
      rw [firstOpening_cons, ← Option.or_assoc, ← lookup_nil_record hm]
      exact ih (hm.record n)

theorem exists_lookup_recordAll {m : PathMap} (hm : m.Sound) (ns : List Notice) {p : Path}
    {l : Location} (hp : m.entries.lookup p = some l) :
    ∃ l', (m.recordAll ns).entries.lookup p = some l' ∧
      (l'.offset ≤ l.offset ∨
        ∃ passed n behind, ns = passed ++ n :: behind ∧ (m.recordAll passed).Rewrites n p) := by
  induction ns generalizing m l with
  | nil => exact ⟨l, hp, Or.inl (Nat.le_refl _)⟩
  | cons n ns ih =>
      obtain ⟨mid, hmid, hstep⟩ := exists_lookup_record hm n hp
      obtain ⟨l', hl', hrest⟩ := ih (hm.record n) hmid
      refine ⟨l', hl', ?_⟩
      rcases hstep with hle | hrewrites
      · rcases hrest with hle' | ⟨passed, a, behind, rfl, hrewrites⟩
        · exact Or.inl (Nat.le_trans hle' hle)
        · exact Or.inr ⟨n :: passed, a, behind, rfl, hrewrites⟩
      · exact Or.inr ⟨[], n, ns, rfl, hrewrites⟩

/-- Whatever notices a new map takes, balanced or not and of any places: no slice and no difference
is out of range. Recorded paths stay in their order, each with one entry. The root has the place of
the first opening. No further notices make the offset of a path greater, except for a text that
closes with no node open around it. -/
theorem entries_of_any_notices (ns later : List Notice) :
    let m := empty.recordAll ns
    let m' := empty.recordAll (ns ++ later)
    empty.recordAll? ns = some m ∧
      (m.entries.paths.Nodup ∧ m.entries.paths <+: m'.entries.paths) ∧
      m.entries.lookup [] = firstOpening ns ∧
      ∀ p l, m.entries.lookup p = some l →
        ∃ l', m'.entries.lookup p = some l' ∧
          (l'.offset ≤ l.offset ∨
            ∃ passed n behind, later = passed ++ n :: behind ∧
              (empty.recordAll (ns ++ passed)).Rewrites n p) := by
  intro m m'
  have hm : m.Sound := sound_empty.recordAll ns
  have hm' : m' = m.recordAll later := recordAll_append empty ns later
  refine ⟨recordAll?_eq empty ns, ⟨hm.nodup, ?_⟩, ?_, fun p l hp => ?_⟩
  · rw [hm']
    exact paths_prefix_recordAll m later
  · exact lookup_nil_recordAll sound_empty ns
  · rw [hm']
    simp only [recordAll_append]
    exact exists_lookup_recordAll hm later hp

-- The second text takes over the entry of the first one, although it stands behind it.
example :
    let again := scalarNotices "a" ⟨0, 0, 0⟩ ++ scalarNotices "a" ⟨1, 0, 2⟩
    (empty.recordAll again).entries = [([], ⟨0, 0, 0⟩), (["a"], ⟨1, 0, 2⟩)] := by
  decide

end ManyNotices

end ManifestForm.PathMap
