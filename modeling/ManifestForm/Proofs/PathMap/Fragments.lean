import ManifestForm.PathMap.Document
import ManifestForm.Proofs.PathMap.Entries
import ManifestForm.Proofs.Yaml.Tree

/-!
# The fragment of a node

Between the notices of its opening and its closing a node leaves the open nodes around it and their
fragments alone, and then adds one fragment of its own. `fragment` is that fragment as a function of
the tree. At the root the fragments become entries.
-/

namespace ManifestForm

namespace PathMap

open Yaml (Node)

/-- The text of the scalar closed last after a node, where `s` is the one before it. -/
def lastText (s : String) : Node Location → String
  | .scalar _ text .. => text
  | .alias .. => "*"
  | .sequence _ _ items _ => ofItems s items
  | .mapping _ _ entries _ => ofEntries s entries
where
  ofItems (s : String) : List (Node Location) → String
    | [] => s
    | n :: ns => ofItems (lastText s n) ns
  ofEntries (s : String) : List (Node Location × Node Location) → String
    | [] => s
    | (k, v) :: es => ofEntries (lastText (lastText s k) v) es

/-- The fragments of the keys and values of a mapping at `path`, given in the order of the text, as
a closing mapping sorts them out. -/
def entryParts (path : Path) (fs : List Fragment) : List (Path × Path × Fragment) :=
  (dropValues true fs.reverse).map fun f => (f.path, f.path.drop path.length, f)

/-- The fragments of the items of a sequence at `path`, numbered by a closing sequence. -/
def itemParts (path : Path) (fs : List Fragment) : List (Path × Path × Fragment) :=
  (numbered (distinctOffsets [] fs.reverse)).map fun (n, f) => (path ++ [n], [n], f)

/-- The fragments of the parts under the paths below their parent. -/
def childrenOf (parts : List (Path × Path × Fragment)) : List Fragment :=
  parts.map fun (_, p, f) => f.withPath p

/-- The fragment of a node below the open nodes of a path, where `s` is the text of the scalar
closed last before it. -/
def fragment (path : Path) (s : String) : Node Location → Fragment
  | .scalar pos text .. => .mk (path ++ [text]) pos []
  | .alias pos _ => .mk (path ++ ["*"]) pos []
  | .sequence start _ items _ =>
    .mk (path ++ [s]) start (childrenOf (itemParts (path ++ [s]) (ofItems (path ++ [s]) s items)))
  | .mapping start _ entries _ =>
    .mk (path ++ [s]) start
      (childrenOf (entryParts (path ++ [s]) (ofEntries (path ++ [s]) s entries)))
where
  ofItems (path : Path) (s : String) : List (Node Location) → List Fragment
    | [] => []
    | n :: ns => fragment path s n :: ofItems path (lastText s n) ns
  ofEntries (path : Path) (s : String) : List (Node Location × Node Location) → List Fragment
    | [] => []
    | (k, v) :: es =>
      fragment path s k :: fragment path (lastText s k) v ::
        ofEntries path (lastText (lastText s k) v) es

@[simp] theorem fragment_location (path : Path) (s : String) (n : Node Location) :
    (fragment path s n).location = n.pos := by
  cases n <;> rfl

/-- A fragment is one segment below the open nodes. -/
theorem fragment_path (path : Path) (s : String) (n : Node Location) :
    (fragment path s n).path = path ++ [n.text?.getD s] := by
  cases n <;> rfl

/-- Each fragment of items is that of one item. -/
theorem mem_ofItems {path : Path} {s : String} {ns : List (Node Location)} {f : Fragment}
    (h : f ∈ fragment.ofItems path s ns) : ∃ s' n, n ∈ ns ∧ f = fragment path s' n := by
  induction ns generalizing s with
  | nil => simp [fragment.ofItems] at h
  | cons n ns ih =>
      rw [fragment.ofItems, List.mem_cons] at h
      rcases h with rfl | h
      · exact ⟨s, n, by simp, rfl⟩
      · obtain ⟨s', n', hn, hf⟩ := ih h
        exact ⟨s', n', List.mem_cons_of_mem _ hn, hf⟩

theorem mem_ofEntries {path : Path} {s : String} {es : List (Node Location × Node Location)}
    {f : Fragment} (h : f ∈ fragment.ofEntries path s es) : ∃ s' n, f = fragment path s' n := by
  induction es generalizing s with
  | nil => simp [fragment.ofEntries] at h
  | cons e es ih =>
      obtain ⟨k, v⟩ := e
      rw [fragment.ofEntries, List.mem_cons, List.mem_cons] at h
      rcases h with rfl | rfl | h
      · exact ⟨s, k, rfl⟩
      · exact ⟨lastText s k, v, rfl⟩
      · exact ih h

section Closing

/-- One step more is below the parent. -/
theorem isBelow_of_path_eq {parent : Path} {s : String} {f : Fragment}
    (h : f.path = parent ++ [s]) : f.isBelow parent = true := by
  simp [Fragment.isBelow, h]

/-- A path that is no longer than another one is not below it. -/
theorem not_isBelow_of_length_le {parent : Path} {f : Fragment}
    (h : f.path.length ≤ parent.length) : f.isBelow parent = false := by
  simp [Fragment.isBelow, Nat.not_lt.mpr h]

/-- A closing node takes the fragments one segment below it, and leaves those beside it and around
it. -/
theorem takeBelow_eq {m : PathMap} {others own : List Fragment}
    (hm : m.fragments = others ++ own)
    (hothers : ∀ f ∈ others, f.path.length ≤ m.path.length)
    (hown : ∀ f ∈ own, ∃ s, f.path = m.path ++ [s]) :
    m.takeBelow = (own.reverse, others) := by
  have hown' : ∀ f ∈ own, f.isBelow m.path = true := by
    intro f hf
    obtain ⟨s, hs⟩ := hown f hf
    exact isBelow_of_path_eq hs
  have hothers' : ∀ f ∈ others, f.isBelow m.path = false := fun f hf =>
    not_isBelow_of_length_le (hothers f hf)
  have hbelow : (others ++ own).filter (·.isBelow m.path) = own := by
    rw [List.filter_append, List.filter_eq_nil_iff.mpr (fun f hf => by simp [hothers' f hf]),
      List.filter_eq_self.mpr hown', List.nil_append]
  have hleft : (others ++ own).filter (fun f => !f.isBelow m.path) = others := by
    rw [List.filter_append, List.filter_eq_self.mpr (fun f hf => by simp [hothers' f hf]),
      List.filter_eq_nil_iff.mpr (fun f hf => by simp [hown' f hf]), List.append_nil]
  have hnot : (not ∘ fun f : Fragment => f.isBelow m.path) = fun f => !f.isBelow m.path := rfl
  rw [takeBelow, hm, List.partition_eq_filter_filter, hbelow, hnot, hleft]

/-- A mapping closes over the parts of its own entries. -/
theorem closeMapping_eq {m : PathMap} {others own : List Fragment} (l : Location)
    (h : m.takeBelow = (own.reverse, others)) :
    m.closeMapping l = m.closeWith (entryParts m.path own) others l := by
  rw [closeMapping, h]; rfl

/-- A sequence closes over the numbers of its own items. -/
theorem closeSequence_eq {m : PathMap} {others own : List Fragment} (l : Location)
    (h : m.takeBelow = (own.reverse, others)) :
    m.closeSequence l = m.closeWith (itemParts m.path own) others l := by
  rw [closeSequence, h]; rfl

/-- Below the root a collection that closes becomes a fragment. -/
theorem closeWith_inner {m : PathMap} (parts : List (Path × Path × Fragment))
    (others : List Fragment) (l : Location) (h : m.path.length ≠ 1) :
    m.closeWith parts others l =
      { m with
        path := m.path.dropLast
        fragments := others ++ [.mk m.path l (childrenOf parts)] } := by
  rw [closeWith, if_neg h]; rfl

theorem placesAll_childrenOf_cons (p q : Path) (f : Fragment)
    (parts : List (Path × Path × Fragment)) :
    Fragment.places.placesAll [] (childrenOf ((p, q, f) :: parts)) =
      f.places q ++ Fragment.places.placesAll [] (childrenOf parts) := by
  rw [childrenOf, List.map_cons, Fragment.placesAll_eq_flatMap, List.flatMap_cons,
    ← Fragment.placesAll_eq_flatMap, Fragment.withPath_path, List.nil_append,
    Fragment.places_withPath]
  rfl

/-- Parts that are resolved one by one lower all their places. -/
theorem foldl_resolve_eq (root : String) (parts : List (Path × Path × Fragment)) (es : Entries)
    (h : ∀ e ∈ parts, e.1 = root :: e.2.1) :
    parts.foldl (fun es (p, _, f) => es.resolve p f) es =
      es.lowerAll (Fragment.places.placesAll [] (childrenOf parts)) := by
  induction parts generalizing es with
  | nil => rfl
  | cons e parts ih =>
      obtain ⟨p, q, f⟩ := e
      obtain rfl : p = root :: q := h (p, q, f) (by simp)
      rw [List.foldl_cons, ih _ fun e he => h e (List.mem_cons_of_mem _ he),
        placesAll_childrenOf_cons, Entries.lowerAll_append,
        ← Entries.resolve_eq_lowerAll root q es f]

/-- A closing root records all that stands in its children. -/
theorem closeWith_root {m : PathMap} (root : String) (parts : List (Path × Path × Fragment))
    (others : List Fragment) (l : Location) (hm : m.path = [root])
    (h : ∀ e ∈ parts, e.1 = root :: e.2.1) :
    m.closeWith parts others l =
      { m with
        entries := m.entries.lowerAll (Fragment.places.placesAll [] (childrenOf parts))
        path := []
        fragments := others } := by
  rw [closeWith, if_pos (by simp [hm]), foldl_resolve_eq root parts m.entries h]
  simp [hm]

/-- Values that are dropped leave fragments that were there. -/
theorem mem_of_mem_dropValues {isValue : Bool} {fs : List Fragment} {f : Fragment}
    (h : f ∈ dropValues isValue fs) : f ∈ fs := by
  induction fs generalizing isValue with
  | nil => simp [dropValues] at h
  | cons g fs ih =>
      rw [dropValues] at h
      split at h
      · exact List.mem_cons_of_mem _ (ih h)
      · rcases List.mem_cons.mp h with rfl | h
        · simp
        · exact List.mem_cons_of_mem _ (ih h)

theorem entryParts_path {path : Path} {own : List Fragment}
    (h : ∀ f ∈ own, ∃ s, f.path = path ++ [s]) {e : Path × Path × Fragment}
    (he : e ∈ entryParts path own) : e.1 = path ++ e.2.1 := by
  obtain ⟨f, hf, rfl⟩ := List.mem_map.mp he
  obtain ⟨s, hs⟩ := h f (List.mem_reverse.mp (mem_of_mem_dropValues hf))
  simp [hs]

theorem itemParts_path {path : Path} {own : List Fragment} {e : Path × Path × Fragment}
    (he : e ∈ itemParts path own) : e.1 = path ++ e.2.1 := by
  obtain ⟨⟨n, f⟩, -, rfl⟩ := List.mem_map.mp he
  rfl

end Closing

section Recording

/-- A state between the opening and the closing of the root, with no fragments deeper than those of
the innermost open node. -/
structure Inside (m : PathMap) : Prop where
  begun : m.begun = true
  path_ne_nil : m.path ≠ []
  fragments_le : ∀ f ∈ m.fragments, f.path.length ≤ m.path.length + 1

/-- The state once the children of an open node have left these fragments. -/
def extend (m : PathMap) (s : String) (own : List Fragment) : PathMap :=
  { m with lastScalar := s, fragments := m.fragments ++ own }

@[simp] theorem extend_path (m : PathMap) (s : String) (own : List Fragment) :
    (m.extend s own).path = m.path := rfl

@[simp] theorem extend_lastScalar (m : PathMap) (s : String) (own : List Fragment) :
    (m.extend s own).lastScalar = s := rfl

/-- Fragments that come in two portions are those of both. -/
theorem extend_extend (m : PathMap) (s t : String) (own more : List Fragment) :
    (m.extend s own).extend t more = m.extend t (own ++ more) := by
  simp [extend]

/-- Fragments of children leave the state within its collection. -/
theorem Inside.extend {m : PathMap} (h : m.Inside) (s : String) (own : List Fragment)
    (hown : ∀ f ∈ own, f.path.length = m.path.length + 1) : (m.extend s own).Inside where
  begun := h.begun
  path_ne_nil := h.path_ne_nil
  fragments_le := by
    intro f hf
    rcases List.mem_append.mp hf with hf | hf
    · exact h.fragments_le f hf
    · exact Nat.le_of_eq (hown f hf)

/-- The notices of several nodes in a row. -/
def itemNotices (ns : List (Node Location)) : List Notice :=
  (Node.events.itemEvents ns).flatMap fun (e, l) => notices l e

def entryNotices (es : List (Node Location × Node Location)) : List Notice :=
  (Node.events.entryEvents es).flatMap fun (e, l) => notices l e

theorem itemNotices_cons (n : Node Location) (ns : List (Node Location)) :
    itemNotices (n :: ns) = nodeNotices n ++ itemNotices ns := by
  rw [itemNotices, Node.events.itemEvents, List.flatMap_append]; rfl

theorem entryNotices_cons (k v : Node Location) (es : List (Node Location × Node Location)) :
    entryNotices ((k, v) :: es) = nodeNotices k ++ (nodeNotices v ++ entryNotices es) := by
  rw [entryNotices, Node.events.entryEvents, List.flatMap_append, List.flatMap_append,
    List.append_assoc]
  rfl

theorem nodeNotices_sequence (start stop : Location) (anchor : Option Nat)
    (items : List (Node Location)) :
    nodeNotices (.sequence start anchor items stop) =
      ⟨.opening, .sequence, start⟩ :: (itemNotices items ++ [⟨.closing, .sequence, stop⟩]) := by
  simp [nodeNotices, Node.events, itemNotices, notices]

theorem nodeNotices_mapping (start stop : Location) (anchor : Option Nat)
    (entries : List (Node Location × Node Location)) :
    nodeNotices (.mapping start anchor entries stop) =
      ⟨.opening, .mapping, start⟩ :: (entryNotices entries ++ [⟨.closing, .mapping, stop⟩]) := by
  simp [nodeNotices, Node.events, entryNotices, notices]

/-- How a node is noticed. -/
def nodeKind : Node Location → NodeKind
  | .scalar _ text .. => .scalar text
  | .alias .. => .scalar "*"
  | .sequence .. => .sequence
  | .mapping .. => .mapping

/-- Where a node closes. -/
def nodeStop : Node Location → Location
  | .scalar pos .. => pos
  | .alias pos _ => pos
  | .sequence _ _ _ stop => stop
  | .mapping _ _ _ stop => stop

/-- The notice with which a node opens. -/
def openingNotice (n : Node Location) : Notice := ⟨.opening, nodeKind n, n.pos⟩

/-- The notice with which a node closes. -/
def closingNotice (n : Node Location) : Notice := ⟨.closing, nodeKind n, nodeStop n⟩

/-- A node is noticed around its children. -/
theorem nodeNotices_eq (n : Node Location) :
    nodeNotices n = openingNotice n :: (itemNotices n.children ++ [closingNotice n]) := by
  match n with
  | .scalar .. => rfl
  | .alias .. => rfl
  | .sequence .. => rw [nodeNotices_sequence]; rfl
  | .mapping _ _ entries _ =>
      rw [nodeNotices_mapping, entryNotices, Node.entryEvents_eq]
      rfl

/-- Notices may be recorded in two portions. -/
theorem recordAll_append (m : PathMap) (ns ns' : List Notice) :
    m.recordAll (ns ++ ns') = (m.recordAll ns).recordAll ns' := List.foldl_append

theorem recordAll_sequence (m : PathMap) (start stop : Location) (anchor : Option Nat)
    (items : List (Node Location)) :
    m.recordAll (nodeNotices (.sequence start anchor items stop)) =
      ((m.openNode start).recordAll (itemNotices items)).record ⟨.closing, .sequence, stop⟩ := by
  rw [nodeNotices_sequence, recordAll, List.foldl_cons, List.foldl_append]
  rfl

theorem recordAll_mapping (m : PathMap) (start stop : Location) (anchor : Option Nat)
    (entries : List (Node Location × Node Location)) :
    m.recordAll (nodeNotices (.mapping start anchor entries stop)) =
      ((m.openNode start).recordAll (entryNotices entries)).record ⟨.closing, .mapping, stop⟩ := by
  rw [nodeNotices_mapping, recordAll, List.foldl_cons, List.foldl_append]
  rfl

/-- A scalar leaves one fragment, under its own text. -/
theorem recordAll_scalarNotices {m : PathMap} (h : m.Inside) (text : String) (l : Location) :
    m.recordAll (scalarNotices text l) =
      m.extend text [.mk (m.path ++ [text]) l []] := by
  have hpath : m.path.isEmpty = false := by simpa using h.path_ne_nil
  simp [scalarNotices, recordAll, record, openNode, closeScalar, extend, h.begun, hpath]

/-- A node opens. -/
theorem inside_openNode {m : PathMap} (l : Location)
    (hm : ∀ f ∈ m.fragments, f.path.length ≤ m.path.length + 1) : (m.openNode l).Inside where
  begun := rfl
  path_ne_nil := by simp [openNode]
  fragments_le := by
    intro f hf
    have hle := hm f hf
    simp only [openNode, List.length_append, List.length_singleton]
    omega

/-- A collection opens inside an open node. -/
theorem Inside.openNode {m : PathMap} (h : m.Inside) (l : Location) : (m.openNode l).Inside :=
  inside_openNode l h.fragments_le

@[simp] theorem openNode_path (l : Location) (m : PathMap) :
    (m.openNode l).path = m.path ++ [m.lastScalar] := rfl

@[simp] theorem openNode_lastScalar (l : Location) (m : PathMap) :
    (m.openNode l).lastScalar = m.lastScalar := rfl

/-- The state in which a collection closes: it opened in `m`, its children have left their
fragments, and the place of its opening has been taken off. -/
def closing (m : PathMap) (start : Location) (s : String) (own : List Fragment) : PathMap :=
  { (m.openNode start).extend s own with opened := m.opened }

/-- A sequence closes at the place of its opening. -/
theorem record_closing_sequence (m : PathMap) (start stop : Location) (s : String)
    (own : List Fragment) :
    ((m.openNode start).extend s own).record ⟨.closing, .sequence, stop⟩ =
      (m.closing start s own).closeSequence start := rfl

theorem record_closing_mapping (m : PathMap) (start stop : Location) (s : String)
    (own : List Fragment) :
    ((m.openNode start).extend s own).record ⟨.closing, .mapping, stop⟩ =
      (m.closing start s own).closeMapping start := rfl

/-- The fragments below the collection are just its own. -/
theorem takeBelow_closing {m : PathMap} (start : Location) (s : String) (own : List Fragment)
    (hm : ∀ f ∈ m.fragments, f.path.length ≤ m.path.length + 1)
    (hown : ∀ f ∈ own, ∃ t, f.path = m.path ++ [m.lastScalar] ++ [t]) :
    (m.closing start s own).takeBelow = (own.reverse, m.fragments) := by
  refine takeBelow_eq rfl (fun f hf => ?_) hown
  simpa [closing, openNode, extend] using hm f hf

/-- A collection that closes inside an open node leaves its own fragment behind. -/
theorem closeWith_closing {m : PathMap} (h : m.Inside) (start : Location) (s : String)
    (own : List Fragment) (parts : List (Path × Path × Fragment)) :
    (m.closing start s own).closeWith parts m.fragments start =
      m.extend s [.mk (m.path ++ [m.lastScalar]) start (childrenOf parts)] := by
  have hlen : (m.closing start s own).path.length ≠ 1 := by
    simpa [closing, openNode, extend] using h.path_ne_nil
  rw [closeWith_inner parts m.fragments start hlen]
  simp [closing, openNode, extend, h.begun]

theorem ofItems_path {path : Path} {s : String} {ns : List (Node Location)} {f : Fragment}
    (h : f ∈ fragment.ofItems path s ns) : ∃ t, f.path = path ++ [t] := by
  obtain ⟨s', n, -, rfl⟩ := mem_ofItems h
  exact ⟨_, fragment_path path s' n⟩

theorem ofEntries_path {path : Path} {s : String} {es : List (Node Location × Node Location)}
    {f : Fragment} (h : f ∈ fragment.ofEntries path s es) : ∃ t, f.path = path ++ [t] := by
  obtain ⟨s', n, rfl⟩ := mem_ofEntries h
  exact ⟨_, fragment_path path s' n⟩

mutual
/-- A node inside an open node adds its fragment and changes nothing else but the scalar closed
last. -/
theorem recordAll_nodeNotices : (n : Node Location) → (m : PathMap) → m.Inside →
    m.recordAll (nodeNotices n) =
      m.extend (lastText m.lastScalar n) [fragment m.path m.lastScalar n]
  | .scalar pos text style tag anchor, m, h => by
      have hn : nodeNotices (.scalar pos text style tag anchor) = scalarNotices text pos := by
        simp [nodeNotices, Node.events, notices]
      rw [hn, recordAll_scalarNotices h, lastText, fragment]
  | .alias pos anchor, m, h => by
      have hn : nodeNotices (.alias pos anchor) = scalarNotices "*" pos := by
        simp [nodeNotices, Node.events, notices]
      rw [hn, recordAll_scalarNotices h, lastText, fragment]
  | .sequence start anchor items stop, m, h => by
      have hitems := recordAll_itemNotices items (m.openNode start) (h.openNode start)
      rw [recordAll_sequence, hitems, record_closing_sequence, openNode_path, openNode_lastScalar,
        closeSequence_eq start (takeBelow_closing start _ _ h.fragments_le fun f => ofItems_path),
        closeWith_closing h, lastText, fragment]
      rfl
  | .mapping start anchor entries stop, m, h => by
      have hentries := recordAll_entryNotices entries (m.openNode start) (h.openNode start)
      rw [recordAll_mapping, hentries, record_closing_mapping, openNode_path, openNode_lastScalar,
        closeMapping_eq start (takeBelow_closing start _ _ h.fragments_le fun f => ofEntries_path),
        closeWith_closing h, lastText, fragment]
      rfl

/-- Items leave their fragments one after the other. -/
theorem recordAll_itemNotices : (ns : List (Node Location)) → (m : PathMap) → m.Inside →
    m.recordAll (itemNotices ns) =
      m.extend (lastText.ofItems m.lastScalar ns) (fragment.ofItems m.path m.lastScalar ns)
  | [], m, _ => by simp [itemNotices, Node.events.itemEvents, recordAll, extend, lastText.ofItems,
      fragment.ofItems]
  | n :: ns, m, h => by
      have hn : (m.extend (lastText m.lastScalar n) [fragment m.path m.lastScalar n]).Inside :=
        h.extend _ _ (by simp [fragment_path])
      rw [itemNotices_cons, recordAll_append, recordAll_nodeNotices n m h,
        recordAll_itemNotices ns _ hn, extend_extend]
      rfl

/-- Keys and values leave their fragments by turns. -/
theorem recordAll_entryNotices : (es : List (Node Location × Node Location)) → (m : PathMap) →
    m.Inside →
    m.recordAll (entryNotices es) =
      m.extend (lastText.ofEntries m.lastScalar es) (fragment.ofEntries m.path m.lastScalar es)
  | [], m, _ => by simp [entryNotices, Node.events.entryEvents, recordAll, extend,
      lastText.ofEntries, fragment.ofEntries]
  | (k, v) :: es, m, h => by
      have hk : (m.extend (lastText m.lastScalar k) [fragment m.path m.lastScalar k]).Inside :=
        h.extend _ _ (by simp [fragment_path])
      have hv := hk.extend (lastText (lastText m.lastScalar k) v)
        [fragment m.path (lastText m.lastScalar k) v] (by simp [fragment_path])
      rw [entryNotices_cons, recordAll_append, recordAll_append, recordAll_nodeNotices k m h,
        recordAll_nodeNotices v _ hk, extend_path, extend_lastScalar,
        recordAll_entryNotices es _ hv, extend_extend, extend_extend]
      rfl
end

end Recording

section Root

theorem inside_openNode_empty (l : Location) : (empty.openNode l).Inside :=
  inside_openNode l (by simp [empty])

theorem closeWith_closing_empty (start : Location) (s : String) (own : List Fragment)
    (parts : List (Path × Path × Fragment)) (h : ∀ e ∈ parts, e.1 = [""] ++ e.2.1) :
    (empty.closing start s own).closeWith parts [] start =
      { empty with
        entries := Entries.lowerAll (Fragment.places.placesAll [] (childrenOf parts)) [([], start)]
        lastScalar := s
        begun := true } := by
  have hroot := closeWith_root (m := empty.closing start s own) "" parts [] start rfl h
  rw [hroot]
  rfl

/-- The whole map of a collection: the root, and all that stands in the fragment of the tree. -/
theorem recordAll_empty_of_collection (n : Node Location) (hn : n.text? = none) :
    empty.recordAll (nodeNotices n) =
      { empty with
        entries :=
          Entries.lowerAll (Fragment.places.placesAll [] (fragment [] "" n).children) [([], n.pos)]
        lastScalar := lastText "" n
        begun := true } := by
  match n, hn with
  | .sequence start anchor items stop, _ =>
      have hitems := recordAll_itemNotices items _ (inside_openNode_empty start)
      have htake := takeBelow_closing (m := empty) start (lastText.ofItems empty.lastScalar items)
        (fragment.ofItems (empty.path ++ [empty.lastScalar]) empty.lastScalar items)
        (by simp [empty]) fun f => ofItems_path
      rw [recordAll_sequence, hitems, record_closing_sequence, openNode_path, openNode_lastScalar,
        closeSequence_eq start htake]
      exact closeWith_closing_empty start _ _ _ fun e he => itemParts_path he
  | .mapping start anchor entries stop, _ =>
      have hentries := recordAll_entryNotices entries _ (inside_openNode_empty start)
      have htake := takeBelow_closing (m := empty) start
        (lastText.ofEntries empty.lastScalar entries)
        (fragment.ofEntries (empty.path ++ [empty.lastScalar]) empty.lastScalar entries)
        (by simp [empty]) fun f => ofEntries_path
      rw [recordAll_mapping, hentries, record_closing_mapping, openNode_path,
        openNode_lastScalar, closeMapping_eq start htake]
      exact closeWith_closing_empty start _ _ _
        fun e he => entryParts_path (fun f => ofEntries_path) he

/-- The map of a document that is a single text. -/
theorem recordAll_empty_of_text (n : Node Location) {text : String} (hn : n.text? = some text) :
    empty.recordAll (nodeNotices n) =
      { empty with
        entries := [([], n.pos), ([text], n.pos)]
        lastScalar := text
        begun := true } := by
  match n, hn with
  | .scalar .., rfl => rfl
  | .alias .., rfl => rfl

end Root

end PathMap

end ManifestForm
