import ManifestForm.Manifest.Load
import ManifestForm.Proofs.Json.Object
import ManifestForm.Proofs.Yaml.Tree

/-!
# The values of document trees

A tree is read from its root: scalars by their text, sequences item by item, mappings by inserting
the entries from left to right. `Evaluates` says, without an order of reading, what a node stands
for behind the nodes that are complete before it. An alias takes the value of the complete node that
has its anchor, as it was where that node began, and is null without one. A builder that takes the
events of a stream of documents one at a time collects the values of their trees.
-/

namespace ManifestForm.Manifest

open Yaml (Node Document)
open Yaml.Node (bothSides nodes)

variable {Pos : Type}

/-- The values of the anchored nodes that are complete, the latest first. -/
abbrev Anchors := List (Nat × Json)

/-- The value of a node is kept under its anchor, if it has one. -/
def Anchors.add (anchor : Option Nat) (v : Json) (anchors : Anchors) : Anchors :=
  match anchor with
  | some id => (id, v) :: anchors
  | none => anchors

/-- The value of a node, and the anchors complete behind it. -/
def nodeValue (anchors : Anchors) : Node Pos → Json × Anchors
  | .scalar _ text style tag anchor =>
    let v := scalarValue text style tag
    (v, anchors.add anchor v)
  | .alias _ anchor => ((anchors.lookup anchor).getD .null, anchors)
  | .sequence _ anchor items _ =>
    let (vs, inner) := itemValues anchors items
    (.arr vs, inner.add anchor (.arr vs))
  | .mapping _ anchor entries _ =>
    let (kvs, inner) := entryValues anchors [] entries
    (.obj kvs, inner.add anchor (.obj kvs))
where
  itemValues (anchors : Anchors) : List (Node Pos) → List Json × Anchors
    | [] => ([], anchors)
    | n :: ns =>
      let (v, inner) := nodeValue anchors n
      let (vs, outer) := itemValues inner ns
      (v :: vs, outer)
  /-- The entries inserted into an object one after the other. -/
  entryValues (anchors : Anchors) (o : Json.Object) :
      List (Node Pos × Node Pos) → Json.Object × Anchors
    | [] => (o, anchors)
    | (k, v) :: es =>
      let (key, inner) := nodeValue anchors k
      let (value, outer) := nodeValue inner v
      entryValues outer (o.insert (keyString key) value) es

/-- The values of documents that share their anchors, null documents left out. -/
def documentValues (anchors : Anchors) : List (Document Pos) → List Json
  | [] => []
  | d :: ds =>
    let (v, inner) := nodeValue anchors d.root
    (if v.isNull then [] else [v]) ++ documentValues inner ds

/-- The entries that keys and values make, each key by its text. -/
def keyed (kvs : List (Json × Json)) : List (String × Json) :=
  kvs.map fun kv => (keyString kv.1, kv.2)

/-- The value of a node, where `before` are the nodes that are complete before it begins. -/
inductive Evaluates : List (Node Pos) → Node Pos → Json → Prop
  | scalar {before : List (Node Pos)} {pos : Pos} {text : String} {style : Yaml.Style}
      {tag : Option Yaml.Tag} {anchor : Option Nat} :
      Evaluates before (.scalar pos text style tag anchor) (scalarValue text style tag)
  | linked {before earlier later : List (Node Pos)} {pos : Pos} {id : Nat} {n : Node Pos} {v : Json}
      (hn : n.anchor? = some id) (hbefore : before = earlier ++ n.nodes ++ later)
      (h : Evaluates earlier n v) : Evaluates before (.alias pos id) v
  | loose {before : List (Node Pos)} {pos : Pos} {id : Nat}
      (h : ∀ n ∈ before, n.anchor? ≠ some id) : Evaluates before (.alias pos id) .null
  | sequence {before items : List (Node Pos)} {start stop : Pos} {anchor : Option Nat}
      {vs : List Json} (hlen : vs.length = items.length)
      (h : ∀ i n v, items[i]? = some n → vs[i]? = some v →
        Evaluates (before ++ (items.take i).flatMap nodes) n v) :
      Evaluates before (.sequence start anchor items stop) (.arr vs)
  | mapping {before : List (Node Pos)} {entries : List (Node Pos × Node Pos)} {start stop : Pos}
      {anchor : Option Nat} {kvs : List (Json × Json)} {o : Json.Object}
      (hlen : (bothSides kvs).length = (bothSides entries).length)
      (h : ∀ i n v, (bothSides entries)[i]? = some n → (bothSides kvs)[i]? = some v →
        Evaluates (before ++ ((bothSides entries).take i).flatMap nodes) n v)
      (ho : Json.Object.Gathers (keyed kvs) o) :
      Evaluates before (.mapping start anchor entries stop) (.obj o)

/-- The values of nodes that stand one behind the other. -/
structure EvaluatesAll (before ns : List (Node Pos)) (vs : List Json) : Prop where
  length_eq : vs.length = ns.length
  each : ∀ i n v, ns[i]? = some n → vs[i]? = some v →
    Evaluates (before ++ (ns.take i).flatMap nodes) n v

theorem evaluatesAll_nil (before : List (Node Pos)) : EvaluatesAll before [] [] where
  length_eq := rfl
  each := by intro i n v hn; simp at hn

/-- A first node is evaluated before the nodes behind it. -/
theorem EvaluatesAll.cons {before ns : List (Node Pos)} {n : Node Pos} {v : Json} {vs : List Json}
    (h : Evaluates before n v) (hs : EvaluatesAll (before ++ n.nodes) ns vs) :
    EvaluatesAll before (n :: ns) (v :: vs) where
  length_eq := by rw [List.length_cons, List.length_cons, hs.length_eq]
  each := by
    intro i m w hm hw
    cases i with
    | zero =>
        obtain rfl := Option.some.inj hm
        obtain rfl := Option.some.inj hw
        simpa using h
    | succ i =>
        have hm' : ns[i]? = some m := by simpa using hm
        have hw' : vs[i]? = some w := by simpa using hw
        simpa using hs.each i m w hm' hw'

/-- What the anchors of a reading say of the nodes that are complete: an anchor that is known has
the value of the node that it stands at, and no node has an unknown one. -/
structure AnchorsOf (before : List (Node Pos)) (anchors : Anchors) : Prop where
  known : ∀ id v, anchors.lookup id = some v → ∃ earlier n later,
    before = earlier ++ n.nodes ++ later ∧ n.anchor? = some id ∧ Evaluates earlier n v
  unknown : ∀ id, anchors.lookup id = none → ∀ n ∈ before, n.anchor? ≠ some id

theorem anchorsOf_nil : AnchorsOf ([] : List (Node Pos)) [] where
  known := by intro id v h; cases h
  unknown := by intro id h n hn; cases hn

theorem lookup_add (anchors : Anchors) (anchor : Option Nat) (v : Json) (id : Nat) :
    List.lookup id (anchors.add anchor v) =
      if anchor = some id then some v else anchors.lookup id := by
  cases anchor with
  | none => simp [Anchors.add]
  | some a =>
      rw [Anchors.add, lookup_cons_eq_ite]
      simp only [Option.some.injEq, eq_comm]

/-- A node becomes complete behind the nodes inside it, and its anchor is known from there on. -/
theorem AnchorsOf.add {before : List (Node Pos)} {anchors : Anchors} {n : Node Pos} {v : Json}
    (h : AnchorsOf (before ++ n.children.flatMap nodes) anchors) (hv : Evaluates before n v) :
    AnchorsOf (before ++ n.nodes) (anchors.add n.anchor? v) where
  known := by
    intro id w hw
    rw [lookup_add] at hw
    by_cases hid : n.anchor? = some id
    · rw [if_pos hid] at hw
      obtain rfl := Option.some.inj hw
      exact ⟨before, n, [], by simp, hid, hv⟩
    · rw [if_neg hid] at hw
      obtain ⟨earlier, m, later, hm, hmid, hmw⟩ := h.known id w hw
      refine ⟨earlier, m, later ++ [n], ?_, hmid, hmw⟩
      rw [n.nodes_eq, ← List.append_assoc, hm, List.append_assoc]
  unknown := by
    intro id hid m hm
    rw [lookup_add] at hid
    by_cases hn : n.anchor? = some id
    · rw [if_pos hn] at hid
      cases hid
    · rw [if_neg hn] at hid
      rw [n.nodes_eq, ← List.append_assoc, List.mem_append, List.mem_singleton] at hm
      rcases hm with hm | rfl
      · exact h.unknown id hid m hm
      · exact hn

section Recursion

open nodeValue (itemValues entryValues)

theorem nodeValue_sequence (anchors : Anchors) (start stop : Pos) (anchor : Option Nat)
    (items : List (Node Pos)) :
    nodeValue anchors (.sequence start anchor items stop) =
      (.arr (itemValues anchors items).1,
        (itemValues anchors items).2.add anchor (.arr (itemValues anchors items).1)) := rfl

theorem nodeValue_mapping (anchors : Anchors) (start stop : Pos) (anchor : Option Nat)
    (entries : List (Node Pos × Node Pos)) :
    nodeValue anchors (.mapping start anchor entries stop) =
      (.obj (entryValues anchors [] entries).1,
        (entryValues anchors [] entries).2.add anchor (.obj (entryValues anchors [] entries).1)) :=
  rfl

theorem itemValues_cons (anchors : Anchors) (n : Node Pos) (ns : List (Node Pos)) :
    itemValues anchors (n :: ns) =
      ((nodeValue anchors n).1 :: (itemValues (nodeValue anchors n).2 ns).1,
        (itemValues (nodeValue anchors n).2 ns).2) := rfl

/-- The entries of a mapping are read as its keys and values one behind the other, and inserted. -/
theorem entryValues_eq (anchors : Anchors) (es : List (Node Pos × Node Pos)) :
    ∃ kvs : List (Json × Json), (itemValues anchors (bothSides es)).1 = bothSides kvs ∧
      ∀ o, entryValues anchors o es =
        ((keyed kvs).foldl (fun o kv => Json.Object.insert o kv.1 kv.2) o,
          (itemValues anchors (bothSides es)).2) := by
  induction es generalizing anchors with
  | nil => exact ⟨[], rfl, fun o => rfl⟩
  | cons e es ih =>
      obtain ⟨k, v⟩ := e
      obtain ⟨kvs, hkvs, hentries⟩ := ih (nodeValue (nodeValue anchors k).2 v).2
      refine ⟨((nodeValue anchors k).1, (nodeValue (nodeValue anchors k).2 v).1) :: kvs, ?_, ?_⟩
      · rw [Node.bothSides_cons, itemValues_cons, itemValues_cons, hkvs, Node.bothSides_cons]
      · intro o
        rw [Node.bothSides_cons, itemValues_cons, itemValues_cons]
        exact hentries _

/-- What the reading of a node gives is its value, and the anchors that are known behind it. -/
def ReadsRight (n : Node Pos) : Prop :=
  ∀ before anchors, AnchorsOf before anchors →
    Evaluates before n (nodeValue anchors n).1 ∧
      AnchorsOf (before ++ n.nodes) (nodeValue anchors n).2

/-- Items are read right if each of them is, from the first to the last. -/
theorem evaluatesAll_itemValues {ns : List (Node Pos)} (hns : ∀ n ∈ ns, ReadsRight n)
    {before : List (Node Pos)} {anchors : Anchors} (h : AnchorsOf before anchors) :
    EvaluatesAll before ns (itemValues anchors ns).1 ∧
      AnchorsOf (before ++ ns.flatMap nodes) (itemValues anchors ns).2 := by
  induction ns generalizing before anchors with
  | nil => exact ⟨evaluatesAll_nil before, by simpa [itemValues] using h⟩
  | cons n ns ih =>
      obtain ⟨hn, hanchors⟩ := hns n (by simp) before anchors h
      obtain ⟨hrest, hbehind⟩ := ih (fun m hm => hns m (List.mem_cons_of_mem n hm)) hanchors
      rw [itemValues_cons]
      refine ⟨.cons hn hrest, ?_⟩
      rwa [List.flatMap_cons, ← List.append_assoc]

/-- Every node is read to its value, and its anchors are kept. -/
theorem readsRight (n : Node Pos) : ReadsRight n := by
  induction n using Node.inductionOn with
  | scalar pos text style tag anchor =>
      intro before anchors h
      have hv : Evaluates before (.scalar pos text style tag anchor)
        (scalarValue text style tag) := .scalar
      refine ⟨hv, AnchorsOf.add (n := .scalar pos text style tag anchor) ?_ hv⟩
      simpa [Node.children] using h
  | link pos id =>
      intro before anchors h
      have hv : Evaluates before (.alias pos id) ((anchors.lookup id).getD .null) := by
        cases hid : anchors.lookup id with
        | none => exact .loose (h.unknown id hid)
        | some v =>
            obtain ⟨earlier, n, later, hn, hnid, hnv⟩ := h.known id v hid
            exact .linked hnid hn hnv
      have hanchors := AnchorsOf.add (n := .alias pos id) (by simpa [Node.children] using h) hv
      exact ⟨hv, hanchors⟩
  | sequence start anchor items stop ih =>
      intro before anchors h
      obtain ⟨hitems, hanchors⟩ := evaluatesAll_itemValues ih h
      rw [nodeValue_sequence]
      have hv : Evaluates before (.sequence start anchor items stop) _ :=
        .sequence hitems.length_eq hitems.each
      exact ⟨hv, AnchorsOf.add (n := .sequence start anchor items stop) hanchors hv⟩
  | mapping start anchor entries stop ih =>
      intro before anchors h
      have hsides : ∀ n ∈ bothSides entries, ReadsRight n := Node.forall_mem_bothSides ih
      obtain ⟨hvalues, hanchors⟩ := evaluatesAll_itemValues hsides h
      obtain ⟨kvs, hkvs, hentries⟩ := entryValues_eq anchors entries
      rw [hkvs] at hvalues
      rw [nodeValue_mapping, hentries []]
      have hv : Evaluates before (.mapping start anchor entries stop) _ :=
        .mapping hvalues.length_eq hvalues.each (Json.Object.gathers_ofList (keyed kvs))
      exact ⟨hv, AnchorsOf.add (n := .mapping start anchor entries stop) hanchors hv⟩

end Recursion

section Uniqueness

/-- No two of the nodes have the same anchor. -/
def AnchorsApart (ns : List (Node Pos)) : Prop := (ns.filterMap Node.anchor?).Nodup

theorem AnchorsApart.sublist {ns ms : List (Node Pos)} (h : AnchorsApart ns)
    (hms : ms.Sublist ns) : AnchorsApart ms :=
  List.Nodup.sublist (hms.filterMap _) h

theorem not_anchorsApart_of_mem {n m : Node Pos} {ns : List (Node Pos)} {id : Nat}
    (hn : n.anchor? = some id) (hm : m.anchor? = some id) (hmem : m ∈ ns) :
    ¬ AnchorsApart (n :: ns) := by
  intro h
  rw [AnchorsApart, List.filterMap_cons_some hn, List.nodup_cons] at h
  exact h.1 (List.mem_filterMap.mpr ⟨m, hmem, hm⟩)

/-- An anchor tells where its node stands. -/
theorem AnchorsApart.append_cons_inj {xs ys xs' ys' : List (Node Pos)} {n n' : Node Pos} {id : Nat}
    (h : AnchorsApart (xs ++ n :: ys)) (heq : xs ++ n :: ys = xs' ++ n' :: ys')
    (hn : n.anchor? = some id) (hn' : n'.anchor? = some id) : xs = xs' ∧ n = n' := by
  induction xs generalizing xs' with
  | nil =>
      cases xs' with
      | nil => exact ⟨rfl, (List.cons.inj heq).1⟩
      | cons m xs' =>
          obtain ⟨-, rfl⟩ := List.cons.inj heq
          exact absurd h (not_anchorsApart_of_mem hn hn' (by simp))
  | cons m xs ih =>
      cases xs' with
      | nil =>
          obtain ⟨rfl, -⟩ := List.cons.inj heq
          exact absurd h (not_anchorsApart_of_mem hn' hn (by simp))
      | cons m' xs' =>
          obtain ⟨rfl, hrest⟩ := List.cons.inj heq
          obtain ⟨rfl, rfl⟩ := ih (h.sublist (List.sublist_cons_self m _)) hrest
          exact ⟨rfl, rfl⟩

/-- An anchor tells where its node stands. -/
theorem AnchorsApart.nodes_inj {before earlier earlier' later later' : List (Node Pos)}
    {n n' : Node Pos} {id : Nat} (h : AnchorsApart before)
    (hbefore : before = earlier ++ n.nodes ++ later)
    (hbefore' : before = earlier' ++ n'.nodes ++ later') (hn : n.anchor? = some id)
    (hn' : n'.anchor? = some id) : earlier = earlier' ∧ n = n' := by
  have hsplit (ms : List (Node Pos)) (m : Node Pos) (rest : List (Node Pos)) :
      ms ++ m.nodes ++ rest = ms ++ m.children.flatMap nodes ++ m :: rest := by
    rw [m.nodes_eq]
    simp
  rw [hsplit] at hbefore hbefore'
  obtain ⟨hpre, rfl⟩ := (hbefore ▸ h).append_cons_inj (hbefore ▸ hbefore') hn hn'
  exact ⟨List.append_cancel_right hpre, rfl⟩

theorem mem_of_eq_append_nodes {before earlier later : List (Node Pos)} {n : Node Pos}
    (h : before = earlier ++ n.nodes ++ later) : n ∈ before := by
  rw [h, n.nodes_eq]
  simp

theorem eq_of_each {ns : List (Node Pos)} {vs vs' : List Json} (hlen : vs.length = ns.length)
    (hlen' : vs'.length = ns.length)
    (h : ∀ (i : Nat) n v v', ns[i]? = some n → vs[i]? = some v → vs'[i]? = some v' → v = v') :
    vs = vs' := by
  apply List.ext_getElem (hlen.trans hlen'.symm)
  intro i hi hi'
  have hn : i < ns.length := hlen ▸ hi
  exact h i ns[i] vs[i] vs'[i] (List.getElem?_eq_getElem hn) (List.getElem?_eq_getElem hi)
    (List.getElem?_eq_getElem hi')

/-- Up to the end of one of the trees, the nodes are a part of the nodes of all. -/
theorem take_flatMap_sublist {ns : List (Node Pos)} {n : Node Pos} {i : Nat} (h : ns[i]? = some n)
    (before : List (Node Pos)) :
    (before ++ (ns.take i).flatMap nodes ++ n.nodes).Sublist (before ++ ns.flatMap nodes) := by
  have htake : (ns.take i).flatMap nodes ++ n.nodes = (ns.take (i + 1)).flatMap nodes := by
    rw [List.take_add_one, h, List.flatMap_append]
    simp
  have hall : ns.flatMap nodes =
      (ns.take (i + 1)).flatMap nodes ++ (ns.drop (i + 1)).flatMap nodes := by
    rw [← List.flatMap_append, List.take_append_drop]
  rw [List.append_assoc, htake, hall]
  exact (List.Sublist.refl before).append (List.sublist_append_left _ _)

theorem AnchorsApart.children {before : List (Node Pos)} {n : Node Pos}
    (h : AnchorsApart (before ++ n.nodes)) :
    AnchorsApart (before ++ n.children.flatMap nodes) := by
  rw [n.nodes_eq, ← List.append_assoc] at h
  exact h.sublist (List.sublist_append_left _ _)

/-- A node has one value at most. -/
theorem Evaluates.unique {before : List (Node Pos)} {n : Node Pos} {v v' : Json}
    (h : Evaluates before n v) (hapart : AnchorsApart (before ++ n.nodes))
    (h' : Evaluates before n v') : v = v' := by
  induction h generalizing v' with
  | scalar => cases h'; rfl
  | @linked before earlier later pos id n v hn hbefore _ ih =>
      have hbehind : AnchorsApart before := hapart.sublist (List.sublist_append_left _ _)
      cases h' with
      | linked hn' hbefore' h' =>
          -- Both derivations link to one node, and its value depends on what stands before it only.
          obtain ⟨rfl, rfl⟩ := hbehind.nodes_inj hbefore hbefore' hn hn'
          have hearlier : (earlier ++ n.nodes).Sublist before := by
            rw [hbefore]
            exact List.sublist_append_left _ _
          exact ih (hbehind.sublist hearlier) h'
      | loose hnone =>
          exact absurd hn (hnone n (mem_of_eq_append_nodes hbefore))
  | @loose before pos id hnone =>
      cases h' with
      | @linked _ earlier later _ _ n v hn hbefore _ =>
          exact absurd hn (hnone n (mem_of_eq_append_nodes hbefore))
      | loose _ => rfl
  | @sequence before items start stop anchor vs hlen _ ih =>
      cases h' with
      | sequence hlen' h' =>
          congr 1
          apply eq_of_each hlen hlen'
          intro i n v v' hn hv hv'
          have hsub := take_flatMap_sublist hn before
          exact ih i n v hn hv (hapart.children.sublist hsub) (h' i n v' hn hv')
  | @mapping before entries start stop anchor kvs o hlen _ ho ih =>
      cases h' with
      | @mapping _ _ _ _ _ kvs' o' hlen' h' ho' =>
          have hsides : bothSides kvs = bothSides kvs' := by
            apply eq_of_each hlen hlen'
            intro i n v v' hn hv hv'
            have hsub := take_flatMap_sublist hn before
            exact ih i n v hn hv (hapart.children.sublist hsub) (h' i n v' hn hv')
          obtain rfl := Node.bothSides_injective hsides
          rw [ho.unique ho']

theorem EvaluatesAll.unique {before ns : List (Node Pos)} {vs vs' : List Json}
    (h : EvaluatesAll before ns vs) (hapart : AnchorsApart (before ++ ns.flatMap nodes))
    (h' : EvaluatesAll before ns vs') : vs = vs' := by
  apply eq_of_each h.length_eq h'.length_eq
  intro i n v v' hn hv hv'
  have hsub := take_flatMap_sublist hn before
  exact (h.each i n v hn hv).unique (hapart.sublist hsub) (h'.each i n v' hn hv')

end Uniqueness

end ManifestForm.Manifest
