import ManifestForm.Proofs.Manifest.Evaluation

/-!
# Documents built from a stream

Between the events of a node and the next ones a builder has put one value into the innermost open
collection, and nothing is left of the node but that value and its anchors. The documents that a
builder collects from a stream of trees are therefore the values of the trees.
-/

namespace ManifestForm.Manifest

open Yaml (Node Document)
open Yaml.Node (bothSides nodes)
open nodeValue (itemValues entryValues)

variable {Pos : Type}

/-- The events of documents that stand one behind the other. -/
def streamEvents (ds : List (Document Pos)) : List Yaml.Event :=
  ds.flatMap fun d => d.events.map (·.1)

namespace Builder

/-- A builder may take events in two portions. -/
theorem run_append (b : Builder) (xs ys : List Yaml.Event) :
    b.run (xs ++ ys) = (b.run xs).run ys :=
  List.foldl_append

theorem record_eq (anchor : Option Nat) (v : Json) (b : Builder) :
    b.record anchor v = { b with anchors := Anchors.add anchor v b.anchors } := by
  cases anchor <;> rfl

theorem insert_of_stack {b : Builder} {frame : Frame} {anchor : Option Nat}
    {stack : List (Frame × Option Nat)} (h : b.stack = (frame, anchor) :: stack) (v : Json) :
    b.insert v = { b with stack := (frame.add v, anchor) :: stack } := by
  rw [insert, h]

/-- The children of a collection, added to its frame from left to right. -/
def addAll (vs : List Json) (frame : Frame) : Frame := vs.foldl (fun f v => f.add v) frame

theorem addAll_sequence (items vs : List Json) :
    addAll vs (.sequence items) = .sequence (items ++ vs) := by
  induction vs generalizing items with
  | nil => rw [List.append_nil]; rfl
  | cons v vs ih =>
      have h := ih (items ++ [v])
      rwa [List.append_assoc] at h

/-- Behind a whole number of entries no key waits for its value. -/
theorem addAll_mapping (o : Json.Object) (kvs : List (Json × Json)) :
    addAll (bothSides kvs) (.mapping o none) =
      .mapping ((keyed kvs).foldl (fun o kv => Json.Object.insert o kv.1 kv.2) o) none := by
  induction kvs generalizing o with
  | nil => rfl
  | cons kv kvs ih => exact ih (Json.Object.insert o (keyString kv.1) kv.2)

/-- A builder takes the events of the node for its value. -/
def Takes (n : Node Pos) : Prop :=
  ∀ b : Builder, b.run (n.events.map (·.1)) =
    ({ b with anchors := (nodeValue b.anchors n).2 } : Builder).insert (nodeValue b.anchors n).1

theorem run_itemEvents {ns : List (Node Pos)} (hns : ∀ n ∈ ns, Takes n) {b : Builder}
    {frame : Frame} {anchor : Option Nat} {stack : List (Frame × Option Nat)}
    (hb : b.stack = (frame, anchor) :: stack) :
    b.run ((Node.events.itemEvents ns).map (·.1)) =
      { b with
        anchors := (itemValues b.anchors ns).2
        stack := (addAll (itemValues b.anchors ns).1 frame, anchor) :: stack } := by
  induction ns generalizing b frame with
  | nil =>
      obtain ⟨s, a, c, d⟩ := b
      obtain rfl : s = _ := hb
      rfl
  | cons n ns ih =>
      rw [Node.events.itemEvents, List.map_append, run_append, hns n (by simp) b,
        insert_of_stack (b := { b with anchors := (nodeValue b.anchors n).2 }) hb,
        ih (fun m hm => hns m (List.mem_cons_of_mem n hm)) rfl, itemValues_cons]
      rfl

theorem close_of_stack {b : Builder} {frame : Frame} {anchor : Option Nat}
    {stack : List (Frame × Option Nat)} (h : b.stack = (frame, anchor) :: stack) :
    b.close =
      ({ b with stack, anchors := Anchors.add anchor frame.value b.anchors } : Builder).insert
        frame.value := by
  rw [close, h]
  dsimp only
  rw [record_eq]

/-- A collection, from its opening to its closing, is one value for the builder. -/
theorem run_collection {ns : List (Node Pos)} (hns : ∀ n ∈ ns, Takes n) (b : Builder)
    (frame : Frame) (anchor : Option Nat) (stop : Yaml.Event) (hstop : ∀ b, step b stop = close b) :
    let v := (addAll (itemValues b.anchors ns).1 frame).value
    (b.openFrame frame anchor).run ((Node.events.itemEvents ns).map (·.1) ++ [stop]) =
      ({ b with anchors := Anchors.add anchor v (itemValues b.anchors ns).2 } : Builder).insert
        v := by
  intro v
  have hinner := run_itemEvents hns (b := b.openFrame frame anchor) rfl
  rw [run_append, hinner]
  change step _ stop = _
  rw [hstop, close_of_stack rfl]
  rfl

/-- A builder takes the events of any node as its value. -/
theorem takes (n : Node Pos) : Takes n := by
  induction n using Node.inductionOn with
  | scalar pos text style tag anchor =>
      intro b
      change (b.record anchor (scalarValue text style tag)).insert (scalarValue text style tag) = _
      rw [record_eq]
      rfl
  | link pos id =>
      intro b
      rfl
  | sequence start anchor items stop ih =>
      intro b
      have hrun := run_collection ih b (.sequence []) anchor .sequenceEnd fun _ => rfl
      rw [addAll_sequence, List.nil_append] at hrun
      rw [Node.events, List.map_cons, List.map_append, nodeValue_sequence]
      exact hrun
  | mapping start anchor entries stop ih =>
      intro b
      have hsides : ∀ n ∈ bothSides entries, Takes n := Node.forall_mem_bothSides ih
      obtain ⟨kvs, hkvs, hentries⟩ := entryValues_eq b.anchors entries
      have hrun := run_collection hsides b (.mapping [] none) anchor .mappingEnd fun _ => rfl
      rw [hkvs, addAll_mapping] at hrun
      rw [Node.events, List.map_cons, List.map_append, Node.entryEvents_eq, nodeValue_mapping,
        hentries]
      exact hrun

section Documents

/-- A document leaves the builder with an empty stack. -/
theorem run_document {b : Builder} (hb : b.stack = []) (d : Document Pos) :
    b.run (d.events.map (·.1)) =
      { stack := []
        anchors := (nodeValue b.anchors d.root).2
        current := none
        documents := b.documents ++ [(nodeValue b.anchors d.root).1] } := by
  obtain ⟨stack, anchors, current, documents⟩ := b
  obtain rfl : stack = [] := hb
  have hroot := takes d.root ⟨[], anchors, none, documents⟩
  rw [Document.events, List.map_cons, List.map_append]
  change run ⟨[], anchors, none, documents⟩ (_ ++ _) = _
  rw [run_append, hroot]
  rfl

theorem documentEnd_not_mem (n : Node Pos) : Yaml.Event.documentEnd ∉ n.events.map (·.1) := by
  have hitems {ns : List (Node Pos)}
      (hns : ∀ n ∈ ns, Yaml.Event.documentEnd ∉ n.events.map (·.1)) :
      Yaml.Event.documentEnd ∉ (Node.events.itemEvents ns).map (·.1) := by
    induction ns with
    | nil => simp [Node.events.itemEvents]
    | cons n ns ih =>
        rw [Node.events.itemEvents, List.map_append, List.mem_append, not_or]
        exact ⟨hns n (by simp), ih fun m hm => hns m (List.mem_cons_of_mem n hm)⟩
  induction n using Node.inductionOn with
  | scalar pos text style tag anchor => simp [Node.events]
  | link pos id => simp [Node.events]
  | sequence start anchor items stop ih =>
      have h := hitems ih
      rw [Node.events, List.map_cons, List.map_append]
      simpa using h
  | mapping start anchor entries stop ih =>
      have h := hitems (Node.forall_mem_bothSides ih)
      rw [Node.events, List.map_cons, List.map_append, Node.entryEvents_eq]
      simpa using h

theorem eq_or_of_append_cons_eq {α : Type} {a : α} {xs rest front back : List α} (hxs : a ∉ xs)
    (h : xs ++ a :: rest = front ++ a :: back) :
    front = xs ∨ ∃ front', front = xs ++ a :: front' ∧ rest = front' ++ a :: back := by
  induction xs generalizing front with
  | nil =>
      cases front with
      | nil => exact Or.inl rfl
      | cons y front =>
          obtain ⟨rfl, rfl⟩ := List.cons.inj h
          exact Or.inr ⟨front, rfl, rfl⟩
  | cons x xs ih =>
      cases front with
      | nil =>
          obtain ⟨rfl, -⟩ := List.cons.inj h
          exact absurd (List.mem_cons_self ..) hxs
      | cons y front =>
          obtain ⟨rfl, hrest⟩ := List.cons.inj h
          rcases ih (fun hmem => hxs (List.mem_cons_of_mem _ hmem)) hrest with
            rfl | ⟨front', rfl, hback⟩
          · exact Or.inl rfl
          · exact Or.inr ⟨front', rfl, hback⟩

/-- At the end of each document no collection is open. -/
theorem stack_at_documentEnd {b : Builder} (hb : b.stack = []) (ds : List (Document Pos))
    {front back : List Yaml.Event} (h : streamEvents ds = front ++ .documentEnd :: back) :
    (b.run front).stack = [] := by
  induction ds generalizing b front with
  | nil => simp [streamEvents] at h
  | cons d ds ih =>
      have hend : Yaml.Event.documentEnd ∉ Yaml.Event.documentStart :: d.root.events.map (·.1) := by
        simpa using documentEnd_not_mem d.root
      have hstream : streamEvents (d :: ds) =
          (.documentStart :: d.root.events.map (·.1)) ++ .documentEnd :: streamEvents ds := by
        simp [streamEvents, Document.events]
      -- The end in question is that of the first document, or it comes behind it.
      rcases eq_or_of_append_cons_eq hend (hstream.symm.trans h) with rfl | ⟨front', rfl, hrest⟩
      · obtain ⟨stack, anchors, current, documents⟩ := b
        obtain rfl : stack = [] := hb
        change (run ⟨[], anchors, none, documents⟩ _).stack = []
        rw [takes d.root]
        rfl
      · have hdocument : d.events.map (·.1) =
            (.documentStart :: d.root.events.map (·.1)) ++ [.documentEnd] := by
          simp [Document.events]
        rw [List.append_cons, ← hdocument, run_append, run_document hb]
        exact ih rfl hrest

/-- The documents of a stream are collected one after the other. -/
theorem run_streamEvents {b : Builder} (hb : b.stack = []) (ds : List (Document Pos)) :
    (b.run (streamEvents ds)).documents =
      b.documents ++ (itemValues b.anchors (ds.map (·.root))).1 := by
  induction ds generalizing b with
  | nil => simp [streamEvents, run, itemValues]
  | cons d ds ih =>
      have hdocument := run_document hb d
      rw [streamEvents, List.flatMap_cons, run_append, hdocument]
      change (run _ (streamEvents ds)).documents = _
      rw [ih rfl, List.map_cons, itemValues_cons, List.append_assoc]
      rfl

end Documents

end Builder

theorem documentValues_eq (anchors : Anchors) (ds : List (Document Pos)) :
    documentValues anchors ds =
      (itemValues anchors (ds.map (·.root))).1.filter fun v => !v.isNull := by
  induction ds generalizing anchors with
  | nil => rfl
  | cons d ds ih =>
      rw [documentValues]
      dsimp only
      rw [ih, List.map_cons, itemValues_cons]
      cases hnull : (nodeValue anchors d.root).1.isNull with
      | true => simp [hnull]
      | false => simp [hnull]

/-- A builder collects what the trees of a stream are read as. -/
theorem ofEvents_streamEvents (ds : List (Document Pos)) :
    ofEvents (streamEvents ds) = documentValues [] ds := by
  rw [ofEvents, Builder.run_streamEvents rfl, documentValues_eq]
  rfl

/-- The documents of a text are what the trees of its stream are read as. -/
theorem documents_eq (content : String) :
    documents content = (Yaml.Documents.ofText content).all.map (documentValues []) := by
  refine congrArg (fun read => Except.map read (Yaml.Documents.ofText content).all) ?_
  funext ds
  exact ofEvents_streamEvents ds

/-- Documents in which no two nodes have the same anchor have one value each, a builder collects
those that are not null in the order of the stream, and no collection is open where a document
ends. -/
theorem ofEvents_collects_values (ds : List (Document Pos))
    (hapart : AnchorsApart (ds.flatMap fun d => d.root.nodes)) :
    ∃ vs, EvaluatesAll [] (ds.map (·.root)) vs ∧
      (∀ vs', EvaluatesAll [] (ds.map (·.root)) vs' → vs' = vs) ∧
      ofEvents (streamEvents ds) = vs.filter (fun v => !v.isNull) ∧
      ∀ front back, streamEvents ds = front ++ .documentEnd :: back →
        (Builder.empty.run front).stack = [] := by
  have hvs : EvaluatesAll [] (ds.map (·.root)) (itemValues [] (ds.map (·.root))).1 :=
    (evaluatesAll_itemValues (fun n _ => readsRight n) anchorsOf_nil).1
  have hnodes : AnchorsApart ((ds.map (·.root)).flatMap nodes) := by
    rwa [List.flatMap_map]
  refine ⟨_, hvs, fun vs' hvs' => hvs'.unique hnodes hvs, ?_, ?_⟩
  · rw [ofEvents_streamEvents, documentValues_eq]
  · intro front back h
    exact Builder.stack_at_documentEnd rfl ds h

/-- A mapping that copies a mapping, has a key twice and links to a sequence in that sequence; an
alias for the first document's mapping; and a null document. -/
def linkedDocuments : List (Document Unit) :=
  let text (t : String) : Node Unit := .scalar () t .doubleQuoted none none
  let plain (t : String) : Node Unit := .scalar () t .plain none none
  [⟨(), .mapping () none
      [(text "base", .mapping () (some 1) [(text "x", plain "1")] ()),
        (text "copy", .alias () 1),
        (text "base", .sequence () (some 2) [.alias () 2] ())] (), ()⟩,
    ⟨(), .alias () 1, ()⟩, ⟨(), plain "~", ()⟩]

theorem collects_linkedDocuments :
    AnchorsApart (linkedDocuments.flatMap fun d => d.root.nodes) ∧
      ∃ vs, EvaluatesAll [] (linkedDocuments.map (·.root)) vs ∧
        vs.filter (fun v => !v.isNull) =
          [.obj [("base", .arr [.null]), ("copy", .obj [("x", int 1)])], .obj [("x", int 1)]] := by
  have hapart : AnchorsApart (linkedDocuments.flatMap fun d => d.root.nodes) := by
    have hanchors : (linkedDocuments.flatMap fun d => d.root.nodes).filterMap Node.anchor? =
        [1, 2] := rfl
    rw [AnchorsApart, hanchors]
    decide
  obtain ⟨vs, hvs, -, hdocuments, -⟩ := ofEvents_collects_values linkedDocuments hapart
  refine ⟨hapart, vs, hvs, hdocuments.symm.trans ?_⟩
  rfl

end ManifestForm.Manifest
