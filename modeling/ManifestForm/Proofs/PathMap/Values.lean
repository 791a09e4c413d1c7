import ManifestForm.Proofs.Manifest.Stream
import ManifestForm.Proofs.PathMap.Places
import Mathlib.Data.List.Forall2

/-!
# The paths of a document and of its value

A chain of nodes spells two paths: the JSON path of its keys as they are resolved and its item
numbers, and the path of its keys as they are written and the same numbers. The value of a document
has the JSON paths of chains and no others, and its map has the written paths of the same chains.
Where two keys of a mapping are resolved to one string only the last of them stays in the value.
-/

namespace ManifestForm

namespace Json

/-- A step into an object or an array. -/
inductive Step where
  | key (name : String)
  | item (index : Nat)

/-- The value at the end of a JSON path. -/
def at? : List Step → Json → Option Json
  | [], v => some v
  | .key name :: q, .obj o => (o.lookup name).bind (at? q)
  | .item i :: q, .arr vs => vs[i]?.bind (at? q)
  | _ :: _, _ => none

/-- Arrays and objects, as opposed to scalars. -/
def isCollection : Json → Bool
  | .arr _ => true
  | .obj _ => true
  | _ => false

theorem at?_cons_of_not_isCollection {v : Json} (h : v.isCollection = false) (s : Step)
    (q : List Step) : v.at? (s :: q) = none := by
  cases v with
  | arr vs => cases h
  | obj o => cases h
  | null => cases s <;> rfl
  | bool b => cases s <;> rfl
  | num n => cases s <;> rfl
  | str t => cases s <;> rfl

end Json

namespace Yaml.Node

variable {Pos : Type}

/-- No node of the tree is an alias. -/
def IsAliasFree (n : Node Pos) : Prop := ∀ pos id, .alias pos id ∉ n.nodes

/-- The string that a key is resolved to. -/
def resolvedKey? : Node Pos → Option String
  | .scalar _ text style tag _ => some (Manifest.keyString (Manifest.scalarValue text style tag))
  | _ => none

/-- No mapping of the tree has two keys that are resolved to the same string. -/
def HasKeysApart (n : Node Pos) : Prop :=
  ∀ start anchor entries stop, .mapping start anchor entries stop ∈ n.nodes →
    (entries.map fun e => e.1.resolvedKey?).Nodup

/-- The nodes of a child are nodes of its parent. -/
theorem nodes_subset_of_child {n m : Node Pos} (h : m ∈ n.children) : m.nodes ⊆ n.nodes := by
  intro x hx
  rw [n.nodes_eq]
  exact List.mem_append_left _ (List.mem_flatMap.mpr ⟨m, h, hx⟩)

theorem mem_nodes_self (n : Node Pos) : n ∈ n.nodes := by
  rw [n.nodes_eq]
  simp

theorem IsAliasFree.child {n m : Node Pos} (h : n.IsAliasFree) (hm : m ∈ n.children) :
    m.IsAliasFree :=
  fun pos id hmem => h pos id (nodes_subset_of_child hm hmem)

theorem HasKeysApart.child {n m : Node Pos} (h : n.HasKeysApart) (hm : m ∈ n.children) :
    m.HasKeysApart :=
  fun start anchor entries stop hmem =>
    h start anchor entries stop (nodes_subset_of_child hm hmem)

theorem mem_children_of_entry {k v : Node Pos} {entries : List (Node Pos × Node Pos)}
    (h : (k, v) ∈ entries) : k ∈ bothSides entries ∧ v ∈ bothSides entries :=
  ⟨List.mem_flatMap.mpr ⟨(k, v), h, by simp⟩, List.mem_flatMap.mpr ⟨(k, v), h, by simp⟩⟩

end Yaml.Node

namespace Manifest

open Yaml (Node Document)
open Yaml.Node (bothSides nodes)

variable {Pos : Type}

theorem isCollection_plainValue (text : String) : (plainValue text).isCollection = false := by
  simp only [plainValue]
  repeat' split
  all_goals rfl

/-- No scalar stands for a collection, whatever its tag. -/
theorem isCollection_scalarValue (text : String) (style : Yaml.Style) (tag : Option Yaml.Tag) :
    (scalarValue text style tag).isCollection = false := by
  rw [scalarValue]
  split
  · rw [taggedValue]
    repeat' split
    all_goals first | rfl | exact isCollection_plainValue text
  · split
    · exact isCollection_plainValue text
    · rfl

theorem Evaluates.eq_scalarValue {before : List (Node Pos)} {pos : Pos} {text : String}
    {style : Yaml.Style} {tag : Option Yaml.Tag} {anchor : Option Nat} {v : Json}
    (h : Evaluates before (.scalar pos text style tag anchor) v) :
    v = scalarValue text style tag := by
  cases h
  rfl

/-- Without aliases the value of a node does not depend on what is complete before it. -/
theorem Evaluates.of_isAliasFree {before : List (Node Pos)} {n : Node Pos} {v : Json}
    (h : Evaluates before n v) (hfree : n.IsAliasFree) (before' : List (Node Pos)) :
    Evaluates before' n v := by
  induction h generalizing before' with
  | scalar => exact .scalar
  | linked hn hbefore h ih => exact absurd (Node.mem_nodes_self _) (hfree _ _)
  | loose h => exact absurd (Node.mem_nodes_self _) (hfree _ _)
  | sequence hlen h ih =>
      apply Evaluates.sequence hlen
      intro i n v hn hv
      exact ih i n v hn hv (hfree.child (List.mem_of_getElem? hn)) _
  | mapping hlen h ho ih =>
      refine Evaluates.mapping hlen ?_ ho
      intro i n v hn hv
      exact ih i n v hn hv (hfree.child (List.mem_of_getElem? hn)) _

/-- The first of the nodes has the first of the values. -/
theorem EvaluatesAll.head {before ns : List (Node Pos)} {n : Node Pos} {v : Json} {vs : List Json}
    (h : EvaluatesAll before (n :: ns) (v :: vs)) : Evaluates before n v := by
  simpa using h.each 0 n v rfl rfl

theorem EvaluatesAll.tail {before ns : List (Node Pos)} {n : Node Pos} {v : Json} {vs : List Json}
    (h : EvaluatesAll before (n :: ns) (v :: vs)) : EvaluatesAll (before ++ n.nodes) ns vs where
  length_eq := by simpa using h.length_eq
  each := by
    intro i m w hm hw
    simpa using h.each (i + 1) m w (by simpa using hm) (by simpa using hw)

end Manifest

namespace PathMap

open Yaml (Node Document)
open Yaml.Node (bothSides)
open Manifest (Evaluates EvaluatesAll keyString keyed scalarValue)

theorem exists_mem_of_forall₂ {α β : Type} {R : α → β → Prop} {as : List α} {bs : List β}
    (h : List.Forall₂ R as bs) {b : β} (hb : b ∈ bs) : ∃ a ∈ as, R a b := by
  induction h with
  | nil => cases hb
  | @cons a b' as bs hab _ ih =>
      rcases List.mem_cons.mp hb with rfl | hb
      · exact ⟨a, List.mem_cons_self .., hab⟩
      · obtain ⟨a', ha', hR⟩ := ih hb
        exact ⟨a', List.mem_cons_of_mem a ha', hR⟩

/-- A chain of nodes from one down to another, with the JSON path and the written path that it
spells. -/
inductive Chain {Pos : Type} : Node Pos → List Json.Step → Path → Node Pos → Prop
  | here {n : Node Pos} : Chain n [] [] n
  | entry {start stop pos : Pos} {anchor keyAnchor : Option Nat} {text : String}
      {style : Yaml.Style} {tag : Option Yaml.Tag} {entries : List (Node Pos × Node Pos)}
      {v m : Node Pos} {q : List Json.Step} {p : Path}
      (he : (.scalar pos text style tag keyAnchor, v) ∈ entries) (h : Chain v q p m) :
      Chain (.mapping start anchor entries stop)
        (.key (keyString (scalarValue text style tag)) :: q) (text :: p) m
  | item {start stop : Pos} {anchor : Option Nat} {items : List (Node Pos)} {i : Nat}
      {n m : Node Pos} {q : List Json.Step} {p : Path} (hi : items[i]? = some n)
      (h : Chain n q p m) :
      Chain (.sequence start anchor items stop) (.item i :: q) (toString i :: p) m

section Mapped

/-- The path that a chain writes occurs in the tree. -/
theorem Chain.occurs {n m : Node Location} {q : List Json.Step} {p : Path} (h : Chain n q p m) :
    p = [] ∨ ∃ l, Occurs n p l := by
  induction h with
  | here => exact Or.inl rfl
  | entry he _ ih =>
      rcases ih with rfl | ⟨l, hl⟩
      · exact Or.inr ⟨_, .key he rfl⟩
      · exact Or.inr ⟨l, .inValue he rfl hl⟩
  | item hi _ ih =>
      rcases ih with rfl | ⟨l, hl⟩
      · exact Or.inr ⟨_, .item hi⟩
      · exact Or.inr ⟨l, .inItem hi hl⟩

theorem Chain.stands {n m : Node Location} {q : List Json.Step} {p : Path} (h : Chain n q p m) :
    ∃ l, Stands n p l := by
  rcases h.occurs with rfl | ⟨l, hl⟩
  · exact ⟨n.pos, .root⟩
  · exact ⟨l, .below hl⟩

/-- A text without aliases is a scalar. -/
theorem exists_scalar_of_text {Pos : Type} {n : Node Pos} {text : String} (h : n.text? = some text)
    (hfree : n.IsAliasFree) : ∃ pos style tag anchor, n = .scalar pos text style tag anchor := by
  match n, h with
  | .scalar pos _ style tag anchor, rfl => exact ⟨pos, style, tag, anchor, rfl⟩
  | .alias pos id, _ => exact absurd (Node.mem_nodes_self _) (hfree pos id)

/-- A chain from the value of an entry goes on from the mapping, with the key in front. -/
theorem Chain.exists_entry {Pos : Type} {start stop : Pos} {anchor : Option Nat}
    {entries : List (Node Pos × Node Pos)} {k v m : Node Pos} {text : String}
    {q : List Json.Step} {p : Path} (h : Chain v q p m) (he : (k, v) ∈ entries)
    (hk : k.text? = some text) (hfree : (Node.mapping start anchor entries stop).IsAliasFree) :
    ∃ name, k.resolvedKey? = some name ∧
      Chain (.mapping start anchor entries stop) (.key name :: q) (text :: p) m := by
  have hkey : k.IsAliasFree := hfree.child (Node.mem_children_of_entry he).1
  obtain ⟨pos, style, tag, keyAnchor, rfl⟩ := exists_scalar_of_text hk hkey
  exact ⟨_, rfl, .entry he h⟩

/-- Each path that occurs is written by a chain. -/
theorem exists_chain_of_occurs {n : Node Location} {p : Path} {l : Location} (h : Occurs n p l)
    (hfree : n.IsAliasFree) : ∃ q m, Chain n q p m := by
  induction h with
  | key he hk =>
      obtain ⟨name, -, hchain⟩ := Chain.here.exists_entry he hk hfree
      exact ⟨_, _, hchain⟩
  | value he hk _ =>
      obtain ⟨name, -, hchain⟩ := Chain.here.exists_entry he hk hfree
      exact ⟨_, _, hchain⟩
  | inValue he hk _ ih =>
      obtain ⟨q, m, hvalue⟩ := ih (hfree.child (Node.mem_children_of_entry he).2)
      obtain ⟨name, -, hchain⟩ := hvalue.exists_entry he hk hfree
      exact ⟨_, m, hchain⟩
  | item hi => exact ⟨_, _, .item hi .here⟩
  | inItem hi _ ih =>
      obtain ⟨q, m, hchain⟩ := ih (hfree.child (List.mem_of_getElem? hi))
      exact ⟨_, m, .item hi hchain⟩

end Mapped

section Valued

variable {Pos : Type}

/-- What an entry without aliases has to do with its two values. -/
def IsValued (e : Node Pos × Node Pos) (kv : Json × Json) : Prop :=
  e.1.resolvedKey? = some (keyString kv.1) ∧ Evaluates [] e.2 kv.2

/-- Without aliases each entry of a mapping has a key and a value of its own. -/
theorem forall₂_isValued {entries : List (Node Pos × Node Pos)} {kvs : List (Json × Json)}
    {before : List (Node Pos)} (hfree : ∀ n ∈ bothSides entries, n.IsAliasFree)
    (hkeys : ∀ e ∈ entries, e.1.text?.isSome = true)
    (h : EvaluatesAll before (bothSides entries) (bothSides kvs)) :
    List.Forall₂ IsValued entries kvs := by
  induction entries generalizing kvs before with
  | nil =>
      cases kvs with
      | nil => exact .nil
      | cons kv kvs => cases h.length_eq
  | cons e entries ih =>
      cases kvs with
      | nil => cases h.length_eq
      | cons kv kvs =>
          obtain ⟨text, htext⟩ := Option.isSome_iff_exists.mp (hkeys e (by simp))
          have hkey : e.1.resolvedKey? = some (keyString kv.1) := by
            have hscalar := h.head
            obtain ⟨pos, style, tag, anchor, hpos⟩ :=
              exists_scalar_of_text htext (hfree e.1 (by simp [bothSides]))
            rw [hpos] at hscalar ⊢
            rw [hscalar.eq_scalarValue]
            rfl
          have hvalue := h.tail.head.of_isAliasFree (hfree e.2 (by simp [bothSides])) []
          refine .cons ⟨hkey, hvalue⟩ (ih ?_ ?_ h.tail.tail)
          · exact fun n hn => hfree n (List.mem_cons_of_mem _ (List.mem_cons_of_mem _ hn))
          · exact fun e he => hkeys e (List.mem_cons_of_mem _ he)

theorem nodup_keyed {entries : List (Node Pos × Node Pos)} {kvs : List (Json × Json)}
    (h : List.Forall₂ IsValued entries kvs)
    (hnodup : (entries.map fun e => e.1.resolvedKey?).Nodup) :
    ((keyed kvs).map Prod.fst).Nodup := by
  have hkeys : (entries.map fun e => e.1.resolvedKey?) =
      ((keyed kvs).map Prod.fst).map some := by
    clear hnodup
    induction h with
    | nil => rfl
    | @cons e kv entries kvs hkv _ ih =>
        rw [List.map_cons, ih, hkv.1]
        rfl
  rw [hkeys] at hnodup
  exact hnodup.of_map some

/-- What is found under a name is the value of an entry for it, the last one. -/
theorem exists_entry_of_lookup {entries : List (Node Pos × Node Pos)} {kvs : List (Json × Json)}
    {o : Json.Object} (h : List.Forall₂ IsValued entries kvs)
    (ho : Json.Object.Gathers (keyed kvs) o) {name : String} {v : Json}
    (hv : o.lookup name = some v) :
    ∃ k e, (k, e) ∈ entries ∧ k.resolvedKey? = some name ∧ Evaluates [] e v := by
  obtain ⟨kv, hkv, hpair⟩ := List.mem_map.mp (ho.mem_of_lookup hv)
  obtain ⟨rfl, rfl⟩ := Prod.mk.inj hpair
  obtain ⟨⟨k, e⟩, he, hkey, hvalue⟩ := exists_mem_of_forall₂ h hkv
  exact ⟨k, e, he, hkey, hvalue⟩

/-- Each JSON path of the value of a tree without aliases is spelled by a chain, and the value there
is that of the node at its end. -/
theorem exists_chain_of_at? {n : Node Pos} {v w : Json} {q : List Json.Step} (hfree : n.IsAliasFree)
    (hkeys : n.HasTextKeys) (hv : Evaluates [] n v) (hw : v.at? q = some w) :
    ∃ p m, Chain n q p m ∧ Evaluates [] m w := by
  induction q generalizing n v with
  | nil =>
      obtain rfl := Option.some.inj hw
      exact ⟨[], n, .here, hv⟩
  | cons s q ih =>
      cases hv with
      | scalar =>
          rw [Json.at?_cons_of_not_isCollection (Manifest.isCollection_scalarValue _ _ _)] at hw
          cases hw
      | linked => exact absurd (Node.mem_nodes_self _) (hfree _ _)
      | loose => exact absurd (Node.mem_nodes_self _) (hfree _ _)
      | @sequence _ items start stop anchor vs hlen heach =>
          cases s with
          | key name => cases hw
          | item i =>
              obtain ⟨x, hx, hxw⟩ := Option.bind_eq_some_iff.mp hw
              have hi : i < items.length := hlen ▸ (List.getElem?_eq_some_iff.mp hx).1
              have hn : items[i]? = some items[i] := List.getElem?_eq_getElem hi
              have hmem := List.mem_of_getElem? hn
              have hfree' := hfree.child (m := items[i]) hmem
              have hkeys' := Node.hasTextKeys_sequence_iff.mp hkeys _ hmem
              have hx' := (heach i _ x hn hx).of_isAliasFree hfree' []
              obtain ⟨p, m, hchain, hm⟩ := ih hfree' hkeys' hx' hxw
              exact ⟨toString i :: p, m, .item hn hchain, hm⟩
      | @mapping _ entries start stop anchor kvs o hlen heach ho =>
          cases s with
          | item i => cases hw
          | key name =>
              have hentries := Node.hasTextKeys_mapping_iff.mp hkeys
              have hvalued : List.Forall₂ IsValued entries kvs :=
                forall₂_isValued (fun n hn => hfree.child hn) (fun e he => (hentries e he).1)
                  ⟨hlen, heach⟩
              obtain ⟨x, hx, hxw⟩ := Option.bind_eq_some_iff.mp hw
              obtain ⟨k, e, he, hkey, hvalue⟩ := exists_entry_of_lookup hvalued ho hx
              have hchild := (Node.mem_children_of_entry he).2
              obtain ⟨p, m, hbelow, hm⟩ := ih (hfree.child hchild) (hentries _ he).2 hvalue hxw
              obtain ⟨text, htext⟩ := Option.isSome_iff_exists.mp (hentries _ he).1
              obtain ⟨name, hname, hchain⟩ := hbelow.exists_entry he htext hfree
              obtain rfl := Option.some.inj (hname.symm.trans hkey)
              exact ⟨text :: p, m, hchain, hm⟩

/-- Where keys are apart, the value has the JSON path of each chain. -/
theorem Chain.exists_at? {n m : Node Pos} {v : Json} {q : List Json.Step} {p : Path}
    (h : Chain n q p m) (hfree : n.IsAliasFree) (hkeys : n.HasTextKeys) (hapart : n.HasKeysApart)
    (hv : Evaluates [] n v) : ∃ w, v.at? q = some w ∧ Evaluates [] m w := by
  induction h generalizing v with
  | here => exact ⟨v, rfl, hv⟩
  | @item start stop anchor items i n m q p hi _ ih =>
      cases hv with
      | @sequence _ _ _ _ _ vs hlen heach =>
          have hmem := List.mem_of_getElem? hi
          have hlt : i < vs.length := hlen ▸ (List.getElem?_eq_some_iff.mp hi).1
          have hx : vs[i]? = some vs[i] := List.getElem?_eq_getElem hlt
          have hfree' := hfree.child (m := n) hmem
          have hkeys' := Node.hasTextKeys_sequence_iff.mp hkeys _ hmem
          have hx' := (heach i n _ hi hx).of_isAliasFree hfree' []
          obtain ⟨w, hw, hm⟩ := ih hfree' hkeys' (hapart.child hmem) hx'
          exact ⟨w, by rw [Json.at?, hx]; exact hw, hm⟩
  | @entry start stop pos anchor keyAnchor text style tag entries e m q p he _ ih =>
      cases hv with
      | @mapping _ _ _ _ _ kvs o hlen heach ho =>
          have hentries := Node.hasTextKeys_mapping_iff.mp hkeys
          have hvalued : List.Forall₂ IsValued entries kvs :=
            forall₂_isValued (fun n hn => hfree.child hn) (fun e he => (hentries e he).1)
              ⟨hlen, heach⟩
          obtain ⟨kv, hkv, hkey, hvalue⟩ := exists_mem_of_forall₂ hvalued.flip he
          have hnodup := nodup_keyed hvalued (hapart _ _ _ _ (Node.mem_nodes_self _))
          have hmem : (keyString kv.1, kv.2) ∈ keyed kvs := List.mem_map.mpr ⟨kv, hkv, rfl⟩
          have hlookup := ho.lookup_of_mem hnodup hmem
          rw [← Option.some.inj hkey] at hlookup
          have hchild := (Node.mem_children_of_entry he).2
          obtain ⟨w, hw, hm⟩ :=
            ih (hfree.child hchild) (hentries _ he).2 (hapart.child hchild) hvalue
          exact ⟨w, by rw [Json.at?, hlookup]; exact hw, hm⟩

end Valued

section Agreement

theorem flatMap_notices_events (d : Document Location) :
    (d.events.flatMap fun (e, l) => notices l e) = nodeNotices d.root := by
  simp [Document.events, nodeNotices, notices]

/-- A path map and a builder that are given the events of one document agree on it. Each JSON path
of the value is spelled by a chain of nodes whose written path is recorded; the value there is that
of the node at the end of the chain. If the document is a collection and no mapping in it has two
keys for one string, each recorded path is the written path of a chain that spells a JSON path of
the value. -/
theorem builder_agrees_with_map (d : Document Location) (hfree : d.root.IsAliasFree)
    (hkeys : d.root.HasTextKeys) (hitems : d.root.HasItemsApart) :
    ∃ v, (Manifest.Builder.empty.run (d.events.map (·.1))).documents = [v] ∧
      (∀ q w, v.at? q = some w → ∃ p m, Chain d.root q p m ∧ Evaluates [] m w ∧
        p ∈ (empty.recordAll (d.events.flatMap fun (e, l) => notices l e)).entries.paths) ∧
      (d.root.text? = none → d.root.HasKeysApart →
        ∀ p ∈ (empty.recordAll (d.events.flatMap fun (e, l) => notices l e)).entries.paths,
          ∃ q m w, Chain d.root q p m ∧ v.at? q = some w ∧ Evaluates [] m w) := by
  have hpaths := (least_recordAll d.root hkeys hitems).mem_paths_iff
  have hv := (Manifest.readsRight d.root [] [] Manifest.anchorsOf_nil).1
  rw [flatMap_notices_events]
  refine ⟨_, by rw [Manifest.Builder.run_document rfl]; rfl, ?_, ?_⟩
  · intro q w hw
    obtain ⟨p, m, hchain, hm⟩ := exists_chain_of_at? hfree hkeys hv hw
    exact ⟨p, m, hchain, hm, (hpaths p).mpr hchain.stands⟩
  · intro hcollection hapart p hp
    obtain ⟨l, hl⟩ := (hpaths p).mp hp
    have hchain : ∃ q m, Chain d.root q p m := by
      cases hl with
      | root => exact ⟨[], d.root, .here⟩
      | text ht => cases hcollection.symm.trans ht
      | below h => exact exists_chain_of_occurs h hfree
    obtain ⟨q, m, hqm⟩ := hchain
    obtain ⟨w, hw, hm⟩ := hqm.exists_at? hfree hkeys hapart hv
    exact ⟨q, m, w, hqm, hw, hm⟩

/-- A mapping of a sequence of a mapping, whose key `0x10` is resolved to `16`, and of a null. -/
def hexKeys : Document Location :=
  let quoted (l : Location) (t : String) : Node Location := .scalar l t .doubleQuoted none none
  ⟨⟨0, 0, 0⟩,
    .mapping ⟨0, 0, 0⟩ none
      [(quoted ⟨0, 0, 0⟩ "hex",
        .sequence ⟨1, 0, 7⟩ none
          [.mapping ⟨1, 2, 9⟩ none
            [(.scalar ⟨1, 2, 9⟩ "0x10" .plain none none, quoted ⟨1, 8, 15⟩ "a")] ⟨2, 0, 19⟩]
          ⟨2, 0, 19⟩),
        (.scalar ⟨2, 0, 19⟩ "~" .plain none none, quoted ⟨2, 3, 22⟩ "b")]
      ⟨3, 0, 26⟩,
    ⟨3, 0, 26⟩⟩

theorem agrees_on_hexKeys :
    hexKeys.root.IsAliasFree ∧ hexKeys.root.HasTextKeys ∧ hexKeys.root.HasItemsApart ∧
      hexKeys.root.HasKeysApart ∧
      ∃ v, (Manifest.Builder.empty.run (hexKeys.events.map (·.1))).documents = [v] ∧
        (∃ p m, Chain hexKeys.root [.key "hex", .item 0, .key "16"] p m ∧
          Evaluates [] m (.str "a") ∧
          p ∈ (empty.recordAll (hexKeys.events.flatMap fun (e, l) => notices l e)).entries.paths) ∧
        ∃ q m w, Chain hexKeys.root q ["hex", "0", "0x10"] m ∧ v.at? q = some w ∧
          Evaluates [] m w := by
  have hfree : hexKeys.root.IsAliasFree := by
    intro pos id
    simp [hexKeys, Node.nodes, Node.nodes.ofItems, Node.nodes.ofEntries]
  have hkeys : hexKeys.root.HasTextKeys := by
    simp [hexKeys, Node.HasTextKeys, Node.HasTextKeys.ofItems, Node.HasTextKeys.ofEntries,
      Node.text?]
  have hitems : hexKeys.root.HasItemsApart := by
    simp [hexKeys, Node.HasItemsApart, Node.HasItemsApart.ofItems, Node.HasItemsApart.ofEntries]
  have hapart : hexKeys.root.HasKeysApart := by
    intro start anchor entries stop hmem
    simp only [hexKeys, Node.nodes, Node.nodes.ofEntries, Node.nodes.ofItems, List.cons_append,
      List.nil_append, List.append_nil, List.mem_cons, reduceCtorEq, Node.mapping.injEq,
      List.not_mem_nil, or_false, false_or] at hmem
    rcases hmem with ⟨-, -, rfl, -⟩ | ⟨-, -, rfl, -⟩
    · decide
    · decide
  obtain ⟨v, hv, hspelled, hrecorded⟩ := builder_agrees_with_map hexKeys hfree hkeys hitems
  have hvalue : v = .obj [("hex", .arr [.obj [("16", .str "a")]]), ("null", .str "b")] :=
    (List.cons.inj (hv.symm.trans rfl)).1
  refine ⟨hfree, hkeys, hitems, hapart, v, hv, hspelled _ _ ?_, hrecorded rfl hapart _ ?_⟩
  · rw [hvalue]
    rfl
  · decide

end Agreement

end PathMap

end ManifestForm
