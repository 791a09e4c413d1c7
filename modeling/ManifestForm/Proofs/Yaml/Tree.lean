import ManifestForm.PathMap.Query
import ManifestForm.Yaml.Node

/-!
# Document trees

What the nodes of a tree count as, and in which order they are complete. Trees have a path for each
of their nodes if their keys are texts and the items of a sequence open at different offsets.
-/

namespace ManifestForm.Yaml.Node

variable {Pos : Type}

/-- A property holds of a tree if it holds of a collection whenever it holds of all its children. -/
@[elab_as_elim]
theorem inductionOn {motive : Node Pos → Prop}
    (scalar : ∀ pos text style tag anchor, motive (.scalar pos text style tag anchor))
    (link : ∀ pos anchor, motive (.alias pos anchor))
    (sequence : ∀ start anchor items stop, (∀ n ∈ items, motive n) →
      motive (.sequence start anchor items stop))
    (mapping : ∀ start anchor entries stop, (∀ e ∈ entries, motive e.1 ∧ motive e.2) →
      motive (.mapping start anchor entries stop)) :
    (n : Node Pos) → motive n
  | .scalar pos text style tag anchor => scalar pos text style tag anchor
  | .alias pos anchor => link pos anchor
  | .sequence start anchor items stop =>
      sequence start anchor items stop fun n _ => inductionOn scalar link sequence mapping n
  | .mapping start anchor entries stop =>
      mapping start anchor entries stop fun e he =>
        have hsize := List.sizeOf_lt_of_mem he
        have hpair : sizeOf e = 1 + sizeOf e.1 + sizeOf e.2 := by cases e; rfl
        ⟨inductionOn scalar link sequence mapping e.1,
          inductionOn scalar link sequence mapping e.2⟩

/-- Where a node opens. -/
def pos : Node Pos → Pos
  | .scalar pos .. => pos
  | .alias pos _ => pos
  | .sequence start .. => start
  | .mapping start .. => start

/-- The text of a node that is no collection. An alias counts as a star. -/
def text? : Node Pos → Option String
  | .scalar _ text .. => some text
  | .alias .. => some "*"
  | .sequence .. => none
  | .mapping .. => none

/-- Whether a node is a collection with something in it. -/
def isFilled : Node Pos → Bool
  | .scalar .. => false
  | .alias .. => false
  | .sequence _ _ items _ => !items.isEmpty
  | .mapping _ _ entries _ => !entries.isEmpty

/-- Everywhere in the tree the keys of mappings are no collections. -/
def HasTextKeys : Node Pos → Prop
  | .scalar .. => True
  | .alias .. => True
  | .sequence _ _ items _ => ofItems items
  | .mapping _ _ entries _ => ofEntries entries
where
  ofItems : List (Node Pos) → Prop
    | [] => True
    | n :: ns => HasTextKeys n ∧ ofItems ns
  ofEntries : List (Node Pos × Node Pos) → Prop
    | [] => True
    | (k, v) :: es => k.text?.isSome = true ∧ HasTextKeys v ∧ ofEntries es

/-- Everywhere in the tree the items of a sequence open at different offsets. -/
def HasItemsApart : Node Location → Prop
  | .scalar .. => True
  | .alias .. => True
  | .sequence _ _ items _ => (items.map fun n => n.pos.offset).Nodup ∧ ofItems items
  | .mapping _ _ entries _ => ofEntries entries
where
  ofItems : List (Node Location) → Prop
    | [] => True
    | n :: ns => HasItemsApart n ∧ ofItems ns
  ofEntries : List (Node Location × Node Location) → Prop
    | [] => True
    | (k, v) :: es => HasItemsApart k ∧ HasItemsApart v ∧ ofEntries es

theorem hasTextKeys_sequence_iff {start stop : Pos} {anchor : Option Nat}
    {items : List (Node Pos)} :
    (Node.sequence start anchor items stop).HasTextKeys ↔ ∀ n ∈ items, n.HasTextKeys := by
  rw [HasTextKeys]
  induction items with
  | nil => simp [HasTextKeys.ofItems]
  | cons n ns ih => rw [HasTextKeys.ofItems, ih, List.forall_mem_cons]

theorem hasTextKeys_mapping_iff {start stop : Pos} {anchor : Option Nat}
    {entries : List (Node Pos × Node Pos)} :
    (Node.mapping start anchor entries stop).HasTextKeys ↔
      ∀ e ∈ entries, e.1.text?.isSome = true ∧ e.2.HasTextKeys := by
  rw [HasTextKeys]
  induction entries with
  | nil => simp [HasTextKeys.ofEntries]
  | cons e es ih =>
      obtain ⟨k, v⟩ := e
      rw [HasTextKeys.ofEntries, ih, List.forall_mem_cons, and_assoc]

theorem hasItemsApart_sequence_iff {start stop : Location} {anchor : Option Nat}
    {items : List (Node Location)} :
    (Node.sequence start anchor items stop).HasItemsApart ↔
      (items.map fun n => n.pos.offset).Nodup ∧ ∀ n ∈ items, n.HasItemsApart := by
  have hitems : HasItemsApart.ofItems items ↔ ∀ n ∈ items, n.HasItemsApart := by
    induction items with
    | nil => simp [HasItemsApart.ofItems]
    | cons n ns ih => rw [HasItemsApart.ofItems, ih, List.forall_mem_cons]
  rw [HasItemsApart, hitems]

theorem hasItemsApart_mapping_iff {start stop : Location} {anchor : Option Nat}
    {entries : List (Node Location × Node Location)} :
    (Node.mapping start anchor entries stop).HasItemsApart ↔
      ∀ e ∈ entries, e.1.HasItemsApart ∧ e.2.HasItemsApart := by
  rw [HasItemsApart]
  induction entries with
  | nil => simp [HasItemsApart.ofEntries]
  | cons e es ih =>
      obtain ⟨k, v⟩ := e
      rw [HasItemsApart.ofEntries, ih, List.forall_mem_cons, and_assoc]

section Nodes

/-- The two sides of each pair in turn, as the keys and values of a mapping stand in the text. -/
def bothSides {α : Type} (pairs : List (α × α)) : List α := pairs.flatMap fun p => [p.1, p.2]

@[simp] theorem bothSides_nil {α : Type} : bothSides ([] : List (α × α)) = [] := rfl

@[simp] theorem bothSides_cons {α : Type} (a b : α) (pairs : List (α × α)) :
    bothSides ((a, b) :: pairs) = a :: b :: bothSides pairs := rfl

theorem forall_mem_bothSides {α : Type} {motive : α → Prop} {pairs : List (α × α)}
    (h : ∀ p ∈ pairs, motive p.1 ∧ motive p.2) : ∀ a ∈ bothSides pairs, motive a := by
  intro a ha
  obtain ⟨p, hp, hmem⟩ := List.mem_flatMap.mp ha
  rw [List.mem_cons, List.mem_singleton] at hmem
  rcases hmem with rfl | rfl
  · exact (h p hp).1
  · exact (h p hp).2

theorem bothSides_injective {α : Type} {ps qs : List (α × α)} (h : bothSides ps = bothSides qs) :
    ps = qs := by
  induction ps generalizing qs with
  | nil =>
      cases qs with
      | nil => rfl
      | cons q qs => cases h
  | cons p ps ih =>
      cases qs with
      | nil => cases h
      | cons q qs =>
          obtain ⟨hkey, hrest⟩ := List.cons.inj h
          obtain ⟨hvalue, hrest⟩ := List.cons.inj hrest
          rw [ih hrest, Prod.ext hkey hvalue]

/-- The nodes right inside a node, in the order of the text. -/
def children : Node Pos → List (Node Pos)
  | .scalar .. => []
  | .alias .. => []
  | .sequence _ _ items _ => items
  | .mapping _ _ entries _ => bothSides entries

/-- A property holds of a tree if it holds of a node whenever it holds of all its children. -/
@[elab_as_elim]
theorem inductionOnChildren {motive : Node Pos → Prop} (n : Node Pos)
    (step : ∀ n, (∀ c ∈ n.children, motive c) → motive n) : motive n := by
  induction n using inductionOn with
  | scalar => exact step _ (List.forall_mem_nil _)
  | link => exact step _ (List.forall_mem_nil _)
  | sequence _ _ _ _ ih => exact step _ ih
  | mapping _ _ _ _ ih => exact step _ (forall_mem_bothSides ih)

/-- The nodes of a tree in the order in which they are complete, the root last. -/
def nodes : Node Pos → List (Node Pos)
  | .scalar pos text style tag anchor => [.scalar pos text style tag anchor]
  | .alias pos anchor => [.alias pos anchor]
  | .sequence start anchor items stop => ofItems items ++ [.sequence start anchor items stop]
  | .mapping start anchor entries stop =>
    ofEntries entries ++ [.mapping start anchor entries stop]
where
  ofItems : List (Node Pos) → List (Node Pos)
    | [] => []
    | n :: ns => nodes n ++ ofItems ns
  ofEntries : List (Node Pos × Node Pos) → List (Node Pos)
    | [] => []
    | (k, v) :: es => nodes k ++ nodes v ++ ofEntries es

theorem nodes_eq (n : Node Pos) : n.nodes = n.children.flatMap nodes ++ [n] := by
  have hitems (ns : List (Node Pos)) : nodes.ofItems ns = ns.flatMap nodes := by
    induction ns with
    | nil => rfl
    | cons n ns ih => rw [nodes.ofItems, ih, List.flatMap_cons]
  have hentries (es : List (Node Pos × Node Pos)) :
      nodes.ofEntries es = (bothSides es).flatMap nodes := by
    induction es with
    | nil => rfl
    | cons e es ih =>
        obtain ⟨k, v⟩ := e
        rw [nodes.ofEntries, ih, bothSides_cons, List.flatMap_cons, List.flatMap_cons,
          List.append_assoc]
  match n with
  | .scalar .. => rfl
  | .alias .. => rfl
  | .sequence .. => rw [nodes, hitems, children]
  | .mapping .. => rw [nodes, hentries, children]

theorem entryEvents_eq (es : List (Node Pos × Node Pos)) :
    events.entryEvents es = events.itemEvents (bothSides es) := by
  induction es with
  | nil => rfl
  | cons e es ih =>
      obtain ⟨k, v⟩ := e
      rw [events.entryEvents, ih, bothSides_cons, events.itemEvents, events.itemEvents,
        List.append_assoc]

/-- The anchor that a node has. -/
def anchor? : Node Pos → Option Nat
  | .scalar _ _ _ _ anchor => anchor
  | .alias .. => none
  | .sequence _ anchor _ _ => anchor
  | .mapping _ anchor _ _ => anchor

end Nodes

end ManifestForm.Yaml.Node
