import ManifestForm.Proofs.PathMap.Nearest
import ManifestForm.Proofs.PathMap.Places

/-!
# Ancestors come first

Each path of a document is recorded behind all the paths that it goes on from: a fragment is
recorded before what stands in it, and a path that is met again keeps its place. If the notices
come in the order of the text, ancestors lie no later in it either. A query for a line therefore
never stops at a path while the same line holds another one that goes on from it.
-/

namespace ManifestForm.PathMap

open Yaml (Node)

section Order

/-- Each path of a list stands behind all its proper beginnings. -/
def AncestorsFirst (ps : List Path) : Prop :=
  ∀ before p after, ps = before ++ p :: after → ∀ q, q <+: p → q ≠ p → q ∈ before

theorem eq_nil_of_prefix_singleton {s : String} {q : Path} (hq : q <+: [s]) (hne : q ≠ [s]) :
    q = [] := by
  cases q with
  | nil => rfl
  | cons t q =>
      obtain ⟨rfl, hrest⟩ := List.cons_prefix_cons.mp hq
      exact absurd (by rw [List.prefix_nil.mp hrest]) hne

theorem ancestorsFirst_singleton_nil : AncestorsFirst [[]] := by
  intro before p after hps q hq hne
  obtain rfl : p = [] := by
    have hmem : p ∈ [([] : Path)] := by simp [hps]
    simpa using hmem
  exact absurd (List.prefix_nil.mp hq) hne

theorem AncestorsFirst.concat {ps : List Path} {p : Path} (h : AncestorsFirst ps)
    (hp : ∀ q, q <+: p → q ≠ p → q ∈ ps) : AncestorsFirst (ps ++ [p]) := by
  intro before r after hps q hq hne
  rcases List.eq_nil_or_concat after with rfl | ⟨inner, last, rfl⟩
  · obtain ⟨rfl, hlast⟩ := List.append_inj' hps rfl
    obtain rfl : p = r := by simpa using hlast
    exact hp q hq hne
  · have hsplit : ps ++ [p] = (before ++ r :: inner) ++ [last] := by simpa using hps
    obtain ⟨hps, -⟩ := List.append_inj' hsplit rfl
    exact h before r inner hps q hq hne

theorem AncestorsFirst.lower {es : Entries} {p : Path} (h : AncestorsFirst es.paths)
    (hp : ∀ q, q <+: p → q ≠ p → q ∈ es.paths) (l : Location) :
    AncestorsFirst (es.lower p l).paths := by
  rw [Entries.paths_lower]
  split
  · exact h
  · exact h.concat hp

namespace Fragment

/-- The children of a fragment stand one segment below it, and so do theirs. -/
inductive IsStepwise : Fragment → Prop
  | mk {p : Path} {l : Location} {children : List Fragment}
      (hsteps : ∀ c ∈ children, ∃ s, c.path = [s]) (heach : ∀ c ∈ children, c.IsStepwise) :
      IsStepwise (.mk p l children)

theorem IsStepwise.withPath {f : Fragment} (h : f.IsStepwise) (p : Path) :
    (f.withPath p).IsStepwise := by
  cases h with
  | mk hsteps heach => exact .mk hsteps heach

/-- Recording what stands in a fragment keeps ancestors first, once those of the fragment itself are
recorded. -/
def KeepsAncestorsFirst (f : Fragment) : Prop :=
  ∀ (p : Path) (es : Entries), AncestorsFirst es.paths →
    (∀ q, q <+: p → q ≠ p → q ∈ es.paths) → AncestorsFirst (es.lowerAll (f.places p)).paths

/-- Children by one step each leave the ancestors first, below a path whose prefixes are recorded.
-/
theorem ancestorsFirst_children {cs : List Fragment} (hsteps : ∀ c ∈ cs, ∃ s, c.path = [s])
    (heach : ∀ c ∈ cs, c.KeepsAncestorsFirst) {p : Path} {es : Entries}
    (hes : AncestorsFirst es.paths) (hp : ∀ q, q <+: p → q ∈ es.paths) :
    AncestorsFirst (es.lowerAll (places.placesAll p cs)).paths := by
  induction cs generalizing es with
  | nil => exact hes
  | cons c cs ih =>
      obtain ⟨hstep, hsteps⟩ := List.forall_mem_cons.mp hsteps
      obtain ⟨hc, heach⟩ := List.forall_mem_cons.mp heach
      obtain ⟨s, hs⟩ := hstep
      have hbegun : ∀ q, q <+: p ++ c.path → q ≠ p ++ c.path → q ∈ es.paths := by
        intro q hq hne
        rw [hs] at hq hne
        exact hp q ((List.prefix_concat_iff.mp hq).resolve_left hne)
      rw [placesAll_eq_flatMap, List.flatMap_cons, Entries.lowerAll_append,
        ← placesAll_eq_flatMap]
      exact ih hsteps heach (hc _ es hes hbegun) fun q hq => Entries.mem_paths_lowerAll (hp q hq)

/-- What stands in a fragment is recorded from the outside to the inside. -/
theorem IsStepwise.keepsAncestorsFirst {f : Fragment} (hf : f.IsStepwise) :
    f.KeepsAncestorsFirst := by
  induction hf with
  | @mk own l children hsteps heach ih =>
      intro p es hes hp
      rw [places, Entries.lowerAll_cons]
      apply ancestorsFirst_children hsteps ih (hes.lower hp l)
      intro q hq
      rw [Entries.mem_paths_lower]
      by_cases hqp : q = p
      · exact Or.inl hqp
      · exact Or.inr (hp q hq hqp)

end Fragment

end Order

section TreeFragments

/-- An item of a sequence stands at its number. -/
theorem of_mem_itemParts {path : Path} {fs : List Fragment} {e : Path × Path × Fragment}
    (h : e ∈ itemParts path fs) : (∃ s, e.2.1 = [s]) ∧ e.2.2 ∈ fs := by
  obtain ⟨⟨name, f⟩, hmem, rfl⟩ := List.mem_map.mp h
  obtain ⟨i, hi, -⟩ := mem_numbered_iff.mp hmem
  have hf : f ∈ distinctOffsets [] fs.reverse := List.mem_reverse.mp (List.mem_of_getElem? hi)
  exact ⟨⟨name, rfl⟩, List.mem_reverse.mp (mem_of_mem_distinctOffsets hf)⟩

/-- A part of a mapping stands at the last segment of its fragment. -/
theorem of_mem_entryParts {path : Path} {fs : List Fragment}
    (hfs : ∀ f ∈ fs, ∃ s, f.path = path ++ [s]) {e : Path × Path × Fragment}
    (h : e ∈ entryParts path fs) : (∃ s, e.2.1 = [s]) ∧ e.2.2 ∈ fs := by
  obtain ⟨f, hf, rfl⟩ := List.mem_map.mp h
  have hmem : f ∈ fs := List.mem_reverse.mp (mem_of_mem_dropValues hf)
  obtain ⟨s, hs⟩ := hfs f hmem
  exact ⟨⟨s, by simp [hs]⟩, hmem⟩

theorem isStepwise_of_parts {p : Path} {l : Location} {parts : List (Path × Path × Fragment)}
    {fs : List Fragment} (hparts : ∀ e ∈ parts, (∃ s, e.2.1 = [s]) ∧ e.2.2 ∈ fs)
    (hfs : ∀ f ∈ fs, f.IsStepwise) : (Fragment.mk p l (childrenOf parts)).IsStepwise := by
  constructor
  · intro c hc
    obtain ⟨e, he, rfl⟩ := List.mem_map.mp hc
    rw [Fragment.withPath_path]
    exact (hparts e he).1
  · intro c hc
    obtain ⟨e, he, rfl⟩ := List.mem_map.mp hc
    exact (hfs _ (hparts e he).2).withPath e.2.1

mutual
/-- The fragment of a node hangs its children by one step each. -/
theorem isStepwise_fragment : (n : Node Location) → (path : Path) → (s : String) →
    (fragment path s n).IsStepwise
  | .scalar pos text style tag anchor, path, s => .mk (by simp) (by simp)
  | .alias pos anchor, path, s => .mk (by simp) (by simp)
  | .sequence start anchor items stop, path, s =>
      isStepwise_of_parts (fun _ he => of_mem_itemParts he)
        (isStepwise_ofItems items (path ++ [s]) s)
  | .mapping start anchor entries stop, path, s =>
      isStepwise_of_parts (fun _ he => of_mem_entryParts (fun _ => ofEntries_path) he)
        (isStepwise_ofEntries entries (path ++ [s]) s)

theorem isStepwise_ofItems : (ns : List (Node Location)) → (path : Path) → (s : String) →
    ∀ f ∈ fragment.ofItems path s ns, f.IsStepwise
  | [], path, s => by simp [fragment.ofItems]
  | n :: ns, path, s => by
      rw [fragment.ofItems, List.forall_mem_cons]
      exact ⟨isStepwise_fragment n path s, isStepwise_ofItems ns path (lastText s n)⟩

theorem isStepwise_ofEntries : (es : List (Node Location × Node Location)) → (path : Path) →
    (s : String) → ∀ f ∈ fragment.ofEntries path s es, f.IsStepwise
  | [], path, s => by simp [fragment.ofEntries]
  | (k, v) :: es, path, s => by
      rw [fragment.ofEntries, List.forall_mem_cons, List.forall_mem_cons]
      exact ⟨isStepwise_fragment k path s, isStepwise_fragment v path (lastText s k),
        isStepwise_ofEntries es path (lastText (lastText s k) v)⟩
end

/-- Whatever the keys of a tree are, its paths are recorded behind those that they go on from. -/
theorem ancestorsFirst_recordAll (n : Node Location) :
    AncestorsFirst (empty.recordAll (nodeNotices n)).entries.paths := by
  cases hn : n.text? with
  | some text =>
      rw [recordAll_empty_of_text n hn]
      change AncestorsFirst ([[]] ++ [[text]])
      apply ancestorsFirst_singleton_nil.concat
      intro q hq hne
      exact List.mem_singleton.mpr (eq_nil_of_prefix_singleton hq hne)
  | none =>
      rw [recordAll_empty_of_collection n hn]
      have hroot : (fragment [] "" n).IsStepwise := isStepwise_fragment n [] ""
      cases hn : fragment [] "" n with
      | mk p l children =>
          rw [hn] at hroot
          cases hroot with
          | mk hsteps heach =>
              apply Fragment.ancestorsFirst_children hsteps fun c hc =>
                (heach c hc).keepsAncestorsFirst
              · exact ancestorsFirst_singleton_nil
              · intro q hq
                exact List.mem_singleton.mpr (List.prefix_nil.mp hq)

end TreeFragments

section TextOrder

/-- The notices of a tree come in the order of their offsets. -/
def InTextOrder (ns : List Notice) : Prop :=
  ns.Pairwise fun a b => a.location.offset ≤ b.location.offset

/-- A tree is first noticed where it opens. -/
theorem exists_nodeNotices_eq_cons (n : Node Location) :
    ∃ kind ns, nodeNotices n = ⟨.opening, kind, n.pos⟩ :: ns :=
  ⟨nodeKind n, _, nodeNotices_eq n⟩

/-- In text order the root of a node opens before all in it. -/
theorem InTextOrder.pos_le {n : Node Location} (h : InTextOrder (nodeNotices n)) {a : Notice}
    (ha : a ∈ nodeNotices n) : n.pos.offset ≤ a.location.offset := by
  obtain ⟨kind, ns, hns⟩ := exists_nodeNotices_eq_cons n
  rw [hns, List.mem_cons] at ha
  rw [InTextOrder, hns, List.pairwise_cons] at h
  rcases ha with rfl | ha
  · exact Nat.le_refl _
  · exact h.1 a ha

theorem nodeNotices_sublist_of_item {items : List (Node Location)} {n : Node Location}
    (h : n ∈ items) : (nodeNotices n).Sublist (itemNotices items) := by
  induction items with
  | nil => cases h
  | cons m items ih =>
      rw [itemNotices_cons]
      rcases List.mem_cons.mp h with rfl | h
      · exact List.sublist_append_left _ _
      · exact (ih h).trans (List.sublist_append_right _ _)

theorem nodeNotices_sublist_of_entry {entries : List (Node Location × Node Location)}
    {k v : Node Location} (h : (k, v) ∈ entries) :
    (nodeNotices k ++ nodeNotices v).Sublist (entryNotices entries) := by
  induction entries with
  | nil => cases h
  | cons e entries ih =>
      obtain ⟨k', v'⟩ := e
      rw [entryNotices_cons, ← List.append_assoc]
      rcases List.mem_cons.mp h with heq | h
      · obtain ⟨rfl, rfl⟩ := Prod.mk.inj heq
        exact List.sublist_append_left _ _
      · exact (ih h).trans (List.sublist_append_right _ _)

theorem nodeNotices_item_sublist {start stop : Location} {anchor : Option Nat}
    {items : List (Node Location)} {n : Node Location} (h : n ∈ items) :
    (nodeNotices n).Sublist (nodeNotices (.sequence start anchor items stop)) := by
  rw [nodeNotices_sequence]
  exact ((nodeNotices_sublist_of_item h).trans (List.sublist_append_left _ _)).cons _

theorem nodeNotices_entry_sublist {start stop : Location} {anchor : Option Nat}
    {entries : List (Node Location × Node Location)} {k v : Node Location}
    (h : (k, v) ∈ entries) :
    (nodeNotices k ++ nodeNotices v).Sublist
      (nodeNotices (.mapping start anchor entries stop)) := by
  rw [nodeNotices_mapping]
  exact ((nodeNotices_sublist_of_entry h).trans (List.sublist_append_left _ _)).cons _

/-- A place of a path is one at which a node opens. -/
theorem Occurs.exists_notice {n : Node Location} {p : Path} {l : Location} (h : Occurs n p l) :
    ∃ a ∈ nodeNotices n, a.location = l := by
  have hself (m : Node Location) : ∃ a ∈ nodeNotices m, a.location = m.pos := by
    obtain ⟨kind, ns, hns⟩ := exists_nodeNotices_eq_cons m
    exact ⟨⟨.opening, kind, m.pos⟩, by simp [hns], rfl⟩
  induction h with
  | @key _ _ _ _ k v _ he hk =>
      obtain ⟨a, ha, hl⟩ := hself k
      exact ⟨a, (nodeNotices_entry_sublist he).subset (List.mem_append_left _ ha), hl⟩
  | @value _ _ _ _ k v _ he hk hv =>
      obtain ⟨a, ha, hl⟩ := hself v
      exact ⟨a, (nodeNotices_entry_sublist he).subset (List.mem_append_right _ ha), hl⟩
  | inValue he hk h ih =>
      obtain ⟨a, ha, hl⟩ := ih
      exact ⟨a, (nodeNotices_entry_sublist he).subset (List.mem_append_right _ ha), hl⟩
  | @item _ _ _ _ _ n hi =>
      obtain ⟨a, ha, hl⟩ := hself n
      exact ⟨a, (nodeNotices_item_sublist (List.mem_of_getElem? hi)).subset ha, hl⟩
  | inItem hi h ih =>
      obtain ⟨a, ha, hl⟩ := ih
      exact ⟨a, (nodeNotices_item_sublist (List.mem_of_getElem? hi)).subset ha, hl⟩

theorem Occurs.pos_le {n : Node Location} {p : Path} {l : Location} (h : Occurs n p l)
    (hn : InTextOrder (nodeNotices n)) : n.pos.offset ≤ l.offset := by
  obtain ⟨a, ha, rfl⟩ := h.exists_notice
  exact hn.pos_le ha

/-- For each place of a path, the paths that it goes on from have places that lie no later: the key
or the item that the place lies behind. -/
theorem Occurs.exists_ancestor {n : Node Location} {p q : Path} {l : Location} (h : Occurs n p l)
    (hn : InTextOrder (nodeNotices n)) (hq : q <+: p) (hne : q ≠ p) (hroot : q ≠ []) :
    ∃ l', Occurs n q l' ∧ l'.offset ≤ l.offset := by
  induction h generalizing q with
  | key => exact absurd (eq_nil_of_prefix_singleton hq hne) hroot
  | value => exact absurd (eq_nil_of_prefix_singleton hq hne) hroot
  | item => exact absurd (eq_nil_of_prefix_singleton hq hne) hroot
  | @inValue _ _ _ _ k v text p l he hk h ih =>
      have hentry : InTextOrder (nodeNotices k ++ nodeNotices v) :=
        hn.sublist (nodeNotices_entry_sublist he)
      obtain ⟨-, hv, hbefore⟩ := List.pairwise_append.mp hentry
      obtain rfl | ⟨r, rfl, hr⟩ := List.prefix_cons_iff.mp hq
      · exact absurd rfl hroot
      · by_cases hnil : r = []
        · obtain ⟨kind, ns, hkey⟩ := exists_nodeNotices_eq_cons k
          obtain ⟨a, ha, rfl⟩ := h.exists_notice
          exact ⟨k.pos, hnil ▸ .key he hk, hbefore _ (by rw [hkey]; exact List.mem_cons_self) a ha⟩
        · obtain ⟨l', hl', hle⟩ := ih hv hr (fun heq => hne (by rw [heq])) hnil
          exact ⟨l', .inValue he hk hl', hle⟩
  | @inItem _ _ _ _ i n p l hi h ih =>
      have hitem : InTextOrder (nodeNotices n) :=
        hn.sublist (nodeNotices_item_sublist (List.mem_of_getElem? hi))
      obtain rfl | ⟨r, rfl, hr⟩ := List.prefix_cons_iff.mp hq
      · exact absurd rfl hroot
      · by_cases hnil : r = []
        · exact ⟨n.pos, hnil ▸ .item hi, h.pos_le hitem⟩
        · obtain ⟨l', hl', hle⟩ := ih hitem hr (fun heq => hne (by rw [heq])) hnil
          exact ⟨l', .inItem hi hl', hle⟩

/-- Above a path that stands in a node each of its ancestors stands no later. -/
theorem Stands.exists_ancestor {n : Node Location} {p q : Path} {l : Location} (h : Stands n p l)
    (hn : InTextOrder (nodeNotices n)) (hq : q <+: p) (hne : q ≠ p) :
    ∃ l', Stands n q l' ∧ l'.offset ≤ l.offset := by
  by_cases hroot : q = []
  · subst hroot
    refine ⟨n.pos, .root, ?_⟩
    cases h with
    | root => exact Nat.le_refl _
    | text => exact Nat.le_refl _
    | below h => exact h.pos_le hn
  · cases h with
    | root => exact absurd (List.prefix_nil.mp hq) hroot
    | text => exact absurd (eq_nil_of_prefix_singleton hq hne) hroot
    | below h =>
        obtain ⟨l', hl', hle⟩ := h.exists_ancestor hn hq hne hroot
        exact ⟨l', .below hl', hle⟩

end TextOrder

section Queries

/-- Every entry stands behind an entry for each path that its own goes on from, and that one lies no
later in the text. -/
def AncestorsBefore (es : Entries) : Prop :=
  ∀ before p l after, es = before ++ (p, l) :: after → ∀ q, q <+: p → q ≠ p →
    ∃ l', (q, l') ∈ before ∧ l'.offset ≤ l.offset

/-- What is recorded has each ancestor before its path, at no greater offset. -/
theorem ancestorsBefore_recordAll (n : Node Location) (hkeys : n.HasTextKeys)
    (hapart : n.HasItemsApart) (hordered : InTextOrder (nodeNotices n)) :
    AncestorsBefore (empty.recordAll (nodeNotices n)).entries := by
  intro before p l after hes q hq hne
  have hleast := least_recordAll n hkeys hapart
  have hpaths := congrArg Entries.paths hes
  rw [Entries.paths, Entries.paths, List.map_append, List.map_cons] at hpaths
  have hmem := ancestorsFirst_recordAll n _ p _ hpaths q hq hne
  obtain ⟨⟨q, l'⟩, hbefore, rfl⟩ := List.mem_map.mp hmem
  obtain ⟨hstands, -⟩ := hleast.least p l (by simp [hes])
  obtain ⟨-, hbest⟩ := hleast.least q l' (hes ▸ List.mem_append_left _ hbefore)
  obtain ⟨l'', hl'', hle⟩ := hstands.exists_ancestor hordered hq hne
  exact ⟨l', hbefore, Nat.le_trans (hbest l'' hl'') hle⟩

/-- The paths that go on from a nearest one lie on earlier lines than it, or behind the line of the
query. -/
theorem IsNearest.line_of_extension {es : Entries} {line : Nat} {p q : Path} {l l' : Location}
    (h : IsNearest line es (p, l)) (hes : AncestorsBefore es) (hnodup : es.paths.Nodup)
    (hq : (q, l') ∈ es) (hpq : p <+: q) (hne : p ≠ q) : l'.line < l.line ∨ line < l'.line := by
  obtain ⟨before, after, rfl, hline, hgreatest, hlast⟩ := h
  have hother : l'.line ≠ l.line := by
    rcases List.mem_append.mp hq with hmem | hmem
    · -- The longer path would stand before the shorter one, which then stood before itself.
      obtain ⟨front, back, rfl⟩ := List.append_of_mem hmem
      obtain ⟨m, hm, -⟩ := hes front q l' (back ++ (p, l) :: after) (by simp) p hpq hne
      rw [Entries.paths, List.append_assoc, List.map_append, List.nodup_append] at hnodup
      have hagain : p ∈ ((q, l') :: back ++ (p, l) :: after).map Prod.fst := by simp
      exact absurd rfl (hnodup.2.2 p (Entries.mem_paths_of_mem hm) p hagain)
    · rcases List.mem_cons.mp hmem with heq | hmem
      · exact absurd (Prod.mk.inj heq).1.symm hne
      · exact hlast (q, l') hmem
  by_cases hbehind : line < l'.line
  · exact Or.inr hbehind
  · exact Or.inl (Nat.lt_of_le_of_ne (hgreatest (q, l') hq (Nat.not_lt.mp hbehind)) hother)

/-- Let a tree have texts for keys, items that lie apart and its notices in the order of the text,
and let its lines start anywhere. In its map all beginnings of a path are recorded before it, at
offsets that are no greater. A query for a line gives a path from which no other one goes on that
lies on the same line or between it and the line of the query. If the entries on its line are a
chain, all of them are beginnings of it. -/
theorem ancestors_first_deepest_nearest (n : Node Location) (hkeys : n.HasTextKeys)
    (hapart : n.HasItemsApart) (hordered : InTextOrder (nodeNotices n)) (starts : List Nat) :
    let m := (empty.withLines starts).recordAll (nodeNotices n)
    AncestorsBefore m.entries ∧
    ∀ line p, m.pathAtLine line = some p → ∃ l, IsNearest line m.entries (p, l) ∧
      (∀ q l', (q, l') ∈ m.entries → p <+: q → p ≠ q → l'.line < l.line ∨ line < l'.line) ∧
      ((∀ e ∈ m.entries, ∀ f ∈ m.entries, e.2.line = l.line → f.2.line = l.line →
          e.1 <+: f.1 ∨ f.1 <+: e.1) →
        ∀ e ∈ m.entries, e.2.line = l.line → e.1 <+: p) := by
  intro m
  have hm : m.entries = (empty.recordAll (nodeNotices n)).entries := by
    rw [show m = _ from recordAll_withLines starts empty (nodeNotices n)]
    rfl
  have hes : AncestorsBefore m.entries :=
    hm ▸ ancestorsBefore_recordAll n hkeys hapart hordered
  have hnodup : m.entries.paths.Nodup := hm ▸ (least_recordAll n hkeys hapart).nodup
  refine ⟨hes, fun line p hp => ?_⟩
  obtain ⟨l, hnearest⟩ := pathAtLine_eq_some_iff.mp hp
  have hbelow (q : Path) (l' : Location) (hq : (q, l') ∈ m.entries) (hpq : p <+: q)
      (hne : p ≠ q) : l'.line < l.line ∨ line < l'.line :=
    hnearest.line_of_extension hes hnodup hq hpq hne
  refine ⟨l, hnearest, hbelow, fun hchain e he hline => ?_⟩
  obtain ⟨before, after, hentries, hle, -⟩ := hnearest
  have hself : (p, l) ∈ m.entries := by simp [hentries]
  rcases hchain e he (p, l) hself hline rfl with hup | hdown
  · exact hup
  · by_cases heq : p = e.1
    · exact heq ▸ List.prefix_rfl
    · rcases hbelow e.1 e.2 he hdown heq with hlt | hlt
      · omega
      · dsimp only at hle
        omega

/-- The item of the outer sequence and the key in it start on one line, where the key is found. -/
theorem deepest_of_repeatedKeys :
    InTextOrder (nodeNotices repeatedKeys) ∧
    (∃ l, (["a", "0"], l) ∈ (empty.recordAll (nodeNotices repeatedKeys)).entries ∧ l.line = 1) ∧
    (empty.recordAll (nodeNotices repeatedKeys)).pathAtLine 1 = some ["a", "0", "b"] ∧
    AncestorsBefore (empty.recordAll (nodeNotices repeatedKeys)).entries ∧
    ∃ l, IsNearest 1 (empty.recordAll (nodeNotices repeatedKeys)).entries (["a", "0", "b"], l) := by
  have hordered : InTextOrder (nodeNotices repeatedKeys) := by
    unfold InTextOrder
    decide
  have hfound :
      (empty.recordAll (nodeNotices repeatedKeys)).pathAtLine 1 = some ["a", "0", "b"] := by
    decide
  obtain ⟨hes, hqueries⟩ := ancestors_first_deepest_nearest repeatedKeys
    hasTextKeys_repeatedKeys hasItemsApart_repeatedKeys hordered []
  obtain ⟨l, hnearest, -⟩ := hqueries 1 _ hfound
  exact ⟨hordered, ⟨⟨1, 2, 5⟩, by decide, rfl⟩, hfound, hes, l, hnearest⟩

end Queries

end ManifestForm.PathMap
