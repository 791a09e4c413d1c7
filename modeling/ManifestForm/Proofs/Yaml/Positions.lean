import ManifestForm.Proofs.Yaml.Tokens
import ManifestForm.Proofs.Yaml.Tree
import ManifestForm.Yaml.Node.Grammar

/-!
# Where nodes stand

Every position in a document is the mark of one of its tokens, or how far the text had been read for
one. So what holds of all marks in a token stream holds of all positions in the documents read
from it. Each function of the grammar keeps this, given that those it calls do.
-/

namespace ManifestForm.Yaml

namespace Node

variable {Pos Pos' : Type} {P : Pos → Prop}

/-- All positions in the tree have the property. -/
def AllPos (P : Pos → Prop) (n : Node Pos) : Prop := ∀ e ∈ n.events, P e.2

theorem allPos_scalar {pos : Pos} (h : P pos) (text : String) (style : Style) (tag : Option Tag)
    (anchor : Option Nat) : (Node.scalar pos text style tag anchor).AllPos P := by
  intro e he
  rw [List.mem_singleton.mp he]
  exact h

/-- The scalar for a node that is left out stands where the node would. -/
theorem allPos_absent {pos : Pos} (h : P pos) : (absent pos).AllPos P :=
  allPos_scalar h "~" .omitted none none

theorem allPos_alias {pos : Pos} (h : P pos) (anchor : Nat) : (Node.alias pos anchor).AllPos P := by
  intro e he
  rw [List.mem_singleton.mp he]
  exact h

theorem forall_mem_itemEvents {ns : List (Node Pos)} (h : ∀ n ∈ ns, n.AllPos P) :
    ∀ e ∈ events.itemEvents ns, P e.2 := by
  induction ns with
  | nil =>
      intro e he
      cases he
  | cons n ns ih =>
      obtain ⟨hn, hns⟩ := List.forall_mem_cons.mp h
      rw [events.itemEvents]
      exact List.forall_mem_append.mpr ⟨hn, ih hns⟩

/-- A collection has one event before those of its parts and one behind them. -/
theorem forall_mem_between {a b : Event} {start stop : Pos} {inner : List (Event × Pos)}
    (hstart : P start) (hinner : ∀ e ∈ inner, P e.2) (hstop : P stop) :
    ∀ e ∈ (a, start) :: (inner ++ [(b, stop)]), P e.2 := by
  rw [List.forall_mem_cons, List.forall_mem_append, List.forall_mem_singleton]
  exact ⟨hstart, hinner, hstop⟩

theorem allPos_sequence {start stop : Pos} {items : List (Node Pos)} (hstart : P start)
    (hitems : ∀ n ∈ items, n.AllPos P) (hstop : P stop) (anchor : Option Nat) :
    (Node.sequence start anchor items stop).AllPos P := by
  rw [AllPos, events]
  exact forall_mem_between hstart (forall_mem_itemEvents hitems) hstop

/-- The positions of a mapping are its two ends and those of its keys and values. -/
theorem allPos_mapping {start stop : Pos} {entries : List (Node Pos × Node Pos)} (hstart : P start)
    (hentries : ∀ e ∈ entries, e.1.AllPos P ∧ e.2.AllPos P) (hstop : P stop)
    (anchor : Option Nat) : (Node.mapping start anchor entries stop).AllPos P := by
  have hsides := forall_mem_itemEvents (forall_mem_bothSides hentries)
  rw [AllPos, events, entryEvents_eq]
  exact forall_mem_between hstart hsides hstop

/-- A tree at other positions has the same events there. -/
theorem events_mapPos (f : Pos → Pos') (n : Node Pos) :
    (n.mapPos f).events = n.events.map fun e => (e.1, f e.2) := by
  induction n using Node.inductionOn with
  | scalar pos text style tag anchor => rfl
  | link pos anchor => rfl
  | sequence start anchor items stop ih =>
      have hitems : events.itemEvents (mapPos.mapItems f items) =
          (events.itemEvents items).map fun e => (e.1, f e.2) := by
        induction items with
        | nil => rfl
        | cons n ns ihns =>
            obtain ⟨hn, hns⟩ := List.forall_mem_cons.mp ih
            rw [mapPos.mapItems, events.itemEvents, events.itemEvents, List.map_append, hn,
              ihns hns]
      rw [mapPos, events, events, hitems, List.map_cons, List.map_append, List.map_singleton]
  | mapping start anchor entries stop ih =>
      have hentries : events.entryEvents (mapPos.mapEntries f entries) =
          (events.entryEvents entries).map fun e => (e.1, f e.2) := by
        induction entries with
        | nil => rfl
        | cons entry es ihes =>
            obtain ⟨k, v⟩ := entry
            obtain ⟨⟨hk, hv⟩, hes⟩ := List.forall_mem_cons.mp ih
            rw [mapPos.mapEntries, events.entryEvents, events.entryEvents, List.map_append,
              List.map_append, hk, hv, ihes hes]
      rw [mapPos, events, events, hentries, List.map_cons, List.map_append, List.map_singleton]

theorem AllPos.mapPos {n : Node Pos} {Q : Pos' → Prop} {f : Pos → Pos'} (h : n.AllPos P)
    (hf : ∀ pos, P pos → Q (f pos)) : (n.mapPos f).AllPos Q := by
  rw [AllPos, events_mapPos]
  intro e he
  obtain ⟨e', he', rfl⟩ := List.mem_map.mp he
  exact hf e'.2 (h e' he')

end Node

/-- All positions in the document have the property. -/
def Document.AllPos {Pos : Type} (P : Pos → Prop) (d : Document Pos) : Prop :=
  ∀ e ∈ d.events, P e.2

/-- The positions of a document are its two marks and those of its root. -/
theorem Document.allPos_of_root {Pos : Type} {P : Pos → Prop} {d : Document Pos}
    (hstart : P d.start) (hroot : d.root.AllPos P) (hstop : P d.stop) : d.AllPos P := by
  rw [AllPos, events]
  exact Node.forall_mem_between hstart hroot hstop

theorem Document.AllPos.root {Pos : Type} {P : Pos → Prop} {d : Document Pos} (h : d.AllPos P) :
    d.root.AllPos P := fun e he => h e (List.mem_cons_of_mem _ (List.mem_append_left _ he))

namespace Reading

/-- The tokens still to be read, of which there are no more than the size, have the property, and so
has where the reading is. -/
structure Keeps (P : Mark → Prop) (size : Nat) (r : Reading) : Prop where
  tokens : ∀ d ∈ r.tokens, P d.lexeme.mark ∧ P d.reach
  length : r.tokens.length ≤ size
  reach : P r.reach

variable {P : Mark → Prop} {size : Nat} {r : Reading}

/-- The next token is at one of the marks, and looking at it takes nothing away. -/
theorem Keeps.look (h : r.Keeps P size) :
    Yields r.look fun x => P x.1.mark ∧ x.2.Keeps P size := by
  rw [Reading.look]
  split
  · exact yields_error _
  · next d ds htokens =>
      obtain ⟨hmark, hreach⟩ := h.tokens d (htokens ▸ List.mem_cons_self)
      exact yields_ok ⟨hmark, h.tokens, h.length, hreach⟩

/-- A token that is taken off leaves the others. -/
theorem Keeps.tail (h : r.Keeps P size) : r.tail.Keeps P size where
  tokens := fun d hd => h.tokens d (List.mem_of_mem_drop hd)
  length := Nat.le_trans (List.drop_sublist 1 r.tokens).length_le h.length
  reach := h.reach

theorem Keeps.dropWhile (h : r.Keeps P size) (test : Token → Bool) :
    (r.dropWhile test).Keeps P size where
  tokens := fun d hd => h.tokens d ((List.dropWhile_sublist _).mem hd)
  length := Nat.le_trans (List.dropWhile_sublist _).length_le h.length
  reach := h.reach

theorem Keeps.register (h : r.Keeps P size) (name : String) :
    (r.register name).2.Keeps P size := ⟨h.tokens, h.length, h.reach⟩

theorem Keeps.properties (h : r.Keeps P size) :
    Yields r.properties fun x => x.2.2.Keeps P size := by
  rw [Reading.properties]
  apply h.look.bind
  rintro ⟨t, r⟩ ⟨-, hr⟩
  dsimp only
  split
  · apply (hr.tail.register _).look.bind
    rintro ⟨t, r⟩ ⟨-, hr⟩
    dsimp only
    split
    · exact yields_ok hr.tail
    · exact yields_ok hr
  · apply hr.tail.look.bind
    rintro ⟨t, r⟩ ⟨-, hr⟩
    dsimp only
    split
    · exact yields_ok (hr.tail.register _)
    · exact yields_ok hr
  · exact yields_ok hr

section Grammar

/-- A node whose positions have the property, and a reading that keeps it. -/
def GivesNode (P : Mark → Prop) (size : Nat) (x : Node Mark × Reading) : Prop :=
  x.1.AllPos P ∧ x.2.Keeps P size

/-- Items whose positions have the property, and a reading that keeps it. -/
def GivesItems (P : Mark → Prop) (size : Nat) (c : Children (Node Mark)) : Prop :=
  (∀ n ∈ c.1, n.AllPos P) ∧ P c.2.1 ∧ c.2.2.Keeps P size

def GivesEntries (P : Mark → Prop) (size : Nat) (c : Children (Node Mark × Node Mark)) : Prop :=
  (∀ e ∈ c.1, e.1.AllPos P ∧ e.2.AllPos P) ∧ P c.2.1 ∧ c.2.2.Keeps P size

/-- What the functions of the grammar give with so much fuel stands where the property holds. -/
structure GrammarKeeps (P : Mark → Prop) (size fuel : Nat) : Prop where
  node : ∀ block indentless r, r.Keeps P size →
    Yields (node fuel block indentless r) (GivesNode P size)
  content : ∀ block indentless anchor tag r, r.Keeps P size →
    Yields (content fuel block indentless anchor tag r) (GivesNode P size)
  blockItems : ∀ r, r.Keeps P size → Yields (blockItems fuel r) (GivesItems P size)
  indentlessItems : ∀ r, r.Keeps P size → Yields (indentlessItems fuel r) (GivesItems P size)
  blockEntries : ∀ r, r.Keeps P size → Yields (blockEntries fuel r) (GivesEntries P size)
  blockValue : ∀ r, r.Keeps P size → Yields (blockValue fuel r) (GivesNode P size)
  flowEntries : ∀ first r, r.Keeps P size →
    Yields (flowEntries fuel first r) (GivesEntries P size)
  flowValue : ∀ r, r.Keeps P size → Yields (flowValue fuel r) (GivesNode P size)
  flowItems : ∀ first r, r.Keeps P size → Yields (flowItems fuel first r) (GivesItems P size)
  pair : ∀ start r, P start → r.Keeps P size → Yields (pair fuel start r) (GivesNode P size)

theorem givesNode_absent {m : Mark} (hm : P m) (hr : r.Keeps P size) :
    GivesNode P size (.absent m, r) := ⟨Node.allPos_absent hm, hr⟩

/-- An item is put before those that are read behind it. -/
theorem yields_items_cons {n : Node Mark} {x : Except Fault (Children (Node Mark))}
    (hn : n.AllPos P) (hx : Yields x (GivesItems P size)) :
    Yields (x >>= fun c => pure (n :: c.1, c.2)) (GivesItems P size) := by
  apply hx.bind
  rintro ⟨ns, stop, r⟩ ⟨hns, hrest⟩
  exact yields_ok ⟨List.forall_mem_cons.mpr ⟨hn, hns⟩, hrest⟩

theorem yields_entries_cons {k v : Node Mark} {x : Except Fault (Children (Node Mark × Node Mark))}
    (hk : k.AllPos P) (hv : v.AllPos P) (hx : Yields x (GivesEntries P size)) :
    Yields (x >>= fun c => pure ((k, v) :: c.1, c.2)) (GivesEntries P size) := by
  apply hx.bind
  rintro ⟨es, stop, r⟩ ⟨hes, hrest⟩
  exact yields_ok ⟨List.forall_mem_cons.mpr ⟨⟨hk, hv⟩, hes⟩, hrest⟩

/-- A node, or what stands for one that has been left out, with what is read behind it. -/
theorem yields_absent_or {β : Type} {Q : β → Prop} {c : Prop} [Decidable c] {m : Mark}
    {x : Except Fault (Node Mark × Reading)} {f : Node Mark × Reading → Except Fault β}
    (hm : P m) (hr : r.Keeps P size) (hx : Yields x (GivesNode P size))
    (hf : ∀ y, GivesNode P size y → Yields (f y) Q) :
    Yields (if c then pure (.absent m, r) >>= f else x >>= f) Q :=
  yields_ite (hf _ (givesNode_absent hm hr)) (hx.bind hf)

namespace GrammarKeeps

variable {fuel : Nat}

/-- A node is an alias, or its properties and its content. -/
theorem node_succ (h : GrammarKeeps P size fuel) (block indentless : Bool) (hr : r.Keeps P size) :
    Yields (Reading.node (fuel + 1) block indentless r) (GivesNode P size) := by
  rw [Reading.node]
  apply hr.look.bind
  rintro ⟨t, r⟩ ⟨ht, hr⟩
  dsimp only
  split
  · split
    · exact yields_error _
    · exact yields_ok ⟨Node.allPos_alias ht _, hr.tail⟩
  · apply hr.properties.bind
    rintro ⟨anchor, tag, r⟩ hr
    exact h.content block indentless anchor tag r hr

/-- The content is a scalar or a collection, and without one the node is absent. -/
theorem content_succ (h : GrammarKeeps P size fuel) (block indentless : Bool) (anchor : Option Nat)
    (tag : Option Tag) (hr : r.Keeps P size) :
    Yields (Reading.content (fuel + 1) block indentless anchor tag r) (GivesNode P size) := by
  rw [Reading.content]
  apply hr.look.bind
  rintro ⟨t, r⟩ ⟨ht, hr⟩
  have hsequence {x : Except Fault (Children (Node Mark))} (hx : Yields x (GivesItems P size)) :
      Yields (x >>= fun c => pure (Node.sequence t.mark anchor c.1 c.2.1, c.2.2))
        (GivesNode P size) := by
    apply hx.bind
    rintro ⟨items, stop, r⟩ ⟨hitems, hstop, hr⟩
    exact yields_ok ⟨Node.allPos_sequence ht hitems hstop anchor, hr⟩
  have hmapping {x : Except Fault (Children (Node Mark × Node Mark))}
      (hx : Yields x (GivesEntries P size)) :
      Yields (x >>= fun c => pure (Node.mapping t.mark anchor c.1 c.2.1, c.2.2))
        (GivesNode P size) := by
    apply hx.bind
    rintro ⟨entries, stop, r⟩ ⟨hentries, hstop, hr⟩
    exact yields_ok ⟨Node.allPos_mapping ht hentries hstop anchor, hr⟩
  dsimp only
  split
  · exact yields_ok ⟨Node.allPos_scalar ht _ _ tag anchor, hr.tail⟩
  · exact hsequence (h.indentlessItems r hr)
  · exact hsequence (h.flowItems true r.tail hr.tail)
  · exact hmapping (h.flowEntries true r.tail hr.tail)
  · exact hsequence (h.blockItems r.tail hr.tail)
  · exact hmapping (h.blockEntries r.tail hr.tail)
  · split
    · exact yields_ok ⟨Node.allPos_scalar ht _ _ tag anchor, hr⟩
    · exact yields_error _

/-- The items of a block sequence are nodes, or absent behind their dashes. -/
theorem blockItems_succ (h : GrammarKeeps P size fuel) (hr : r.Keeps P size) :
    Yields (Reading.blockItems (fuel + 1) r) (GivesItems P size) := by
  rw [Reading.blockItems]
  apply hr.look.bind
  rintro ⟨t, r⟩ ⟨ht, hr⟩
  dsimp only
  split
  · exact yields_ok ⟨List.forall_mem_nil _, ht, hr.tail⟩
  · apply hr.tail.look.bind
    rintro ⟨t, r⟩ ⟨ht, hr⟩
    apply yields_absent_or ht hr (h.node true false r hr)
    rintro ⟨n, r⟩ ⟨hn, hr⟩
    exact yields_items_cons hn (h.blockItems r hr)
  · exact yields_error _

theorem indentlessItems_succ (h : GrammarKeeps P size fuel) (hr : r.Keeps P size) :
    Yields (Reading.indentlessItems (fuel + 1) r) (GivesItems P size) := by
  rw [Reading.indentlessItems]
  apply hr.look.bind
  rintro ⟨t, r⟩ ⟨ht, hr⟩
  dsimp only
  split
  · apply hr.tail.look.bind
    rintro ⟨t, r⟩ ⟨ht, hr⟩
    apply yields_absent_or ht hr (h.node true false r hr)
    rintro ⟨n, r⟩ ⟨hn, hr⟩
    exact yields_items_cons hn (h.indentlessItems r hr)
  · exact yields_ok ⟨List.forall_mem_nil _, ht, hr⟩

/-- The value of a key, and the entries behind it. -/
theorem yields_blockEntry (h : GrammarKeeps P size fuel) {k : Node Mark} (hk : k.AllPos P)
    (hr : r.Keeps P size) :
    Yields (Reading.blockValue fuel r >>= fun x =>
      Reading.blockEntries fuel x.2 >>= fun c => pure ((k, x.1) :: c.1, c.2))
      (GivesEntries P size) := by
  apply (h.blockValue r hr).bind
  rintro ⟨v, r⟩ ⟨hv, hr⟩
  exact yields_entries_cons hk hv (h.blockEntries r hr)

/-- The keys of a block mapping are nodes, or absent before their values. -/
theorem blockEntries_succ (h : GrammarKeeps P size fuel) (hr : r.Keeps P size) :
    Yields (Reading.blockEntries (fuel + 1) r) (GivesEntries P size) := by
  rw [Reading.blockEntries]
  apply hr.look.bind
  rintro ⟨t, r⟩ ⟨ht, hr⟩
  dsimp only
  split
  · exact yields_ok ⟨List.forall_mem_nil _, ht, hr.tail⟩
  · apply hr.tail.look.bind
    rintro ⟨t, r⟩ ⟨ht, hr⟩
    apply yields_absent_or ht hr (h.node true true r hr)
    rintro ⟨k, r⟩ ⟨hk, hr⟩
    exact h.yields_blockEntry hk hr
  · exact h.yields_blockEntry (Node.allPos_absent ht) hr
  · exact yields_error _

/-- The value of a block entry is a node, or absent where no colon stands. -/
theorem blockValue_succ (h : GrammarKeeps P size fuel) (hr : r.Keeps P size) :
    Yields (Reading.blockValue (fuel + 1) r) (GivesNode P size) := by
  rw [Reading.blockValue]
  apply hr.look.bind
  rintro ⟨t, r⟩ ⟨ht, hr⟩
  dsimp only
  split
  · apply hr.tail.look.bind
    rintro ⟨t, r⟩ ⟨ht, hr⟩
    exact yields_ite (yields_ok (givesNode_absent ht hr)) (h.node true true r hr)
  · exact yields_ok (givesNode_absent ht hr)

/-- The entries of a flow mapping may lack their keys and their values. -/
theorem flowEntries_succ (h : GrammarKeeps P size fuel) (first : Bool) (hr : r.Keeps P size) :
    Yields (Reading.flowEntries (fuel + 1) first r) (GivesEntries P size) := by
  rw [Reading.flowEntries]
  apply hr.look.bind
  rintro ⟨t, r⟩ ⟨ht, hr⟩
  dsimp only
  apply yields_ite (yields_ok ⟨List.forall_mem_nil _, ht, hr.tail⟩)
  apply yields_ite (yields_error _)
  have hnext : (if first = true then r else r.tail).Keeps P size := by
    split
    · exact hr
    · exact hr.tail
  apply hnext.look.bind
  rintro ⟨u, r⟩ ⟨hu, hr⟩
  dsimp only
  split
  · exact yields_ok ⟨List.forall_mem_nil _, ht, hr.tail⟩
  · apply hr.tail.look.bind
    rintro ⟨w, r⟩ ⟨hw, hr⟩
    apply yields_absent_or hw hr (h.node false false r hr)
    rintro ⟨k, r⟩ ⟨hk, hr⟩
    apply (h.flowValue r hr).bind
    rintro ⟨v, r⟩ ⟨hv, hr⟩
    exact yields_entries_cons hk hv (h.flowEntries false r hr)
  · apply (h.flowValue r hr).bind
    rintro ⟨v, r⟩ ⟨hv, hr⟩
    exact yields_entries_cons (Node.allPos_absent hu) hv (h.flowEntries false r hr)
  · apply (h.node false false r hr).bind
    rintro ⟨k, r⟩ ⟨hk, hr⟩
    apply hr.look.bind
    rintro ⟨w, r⟩ ⟨hw, hr⟩
    exact yields_entries_cons hk (Node.allPos_absent hw) (h.flowEntries false r hr)

theorem flowValue_succ (h : GrammarKeeps P size fuel) (hr : r.Keeps P size) :
    Yields (Reading.flowValue (fuel + 1) r) (GivesNode P size) := by
  rw [Reading.flowValue]
  apply hr.look.bind
  rintro ⟨t, r⟩ ⟨ht, hr⟩
  dsimp only
  split
  · apply hr.tail.look.bind
    rintro ⟨u, r⟩ ⟨-, hr⟩
    exact yields_ite (yields_ok (givesNode_absent ht hr)) (h.node false false r hr)
  · exact yields_ok (givesNode_absent ht hr)

/-- The items of a flow sequence are nodes, or pairs with a key. -/
theorem flowItems_succ (h : GrammarKeeps P size fuel) (first : Bool) (hr : r.Keeps P size) :
    Yields (Reading.flowItems (fuel + 1) first r) (GivesItems P size) := by
  rw [Reading.flowItems]
  apply hr.look.bind
  rintro ⟨t, r⟩ ⟨ht, hr⟩
  dsimp only
  apply yields_ite (yields_ok ⟨List.forall_mem_nil _, ht, hr.tail⟩)
  apply yields_ite (yields_error _)
  have hnext : (if first = true then r else r.tail).Keeps P size := by
    split
    · exact hr
    · exact hr.tail
  apply hnext.look.bind
  rintro ⟨u, r⟩ ⟨hu, hr⟩
  dsimp only
  split
  · exact yields_ok ⟨List.forall_mem_nil _, hu, hr.tail⟩
  · apply (h.pair u.mark r.tail hu hr.tail).bind
    rintro ⟨n, r⟩ ⟨hn, hr⟩
    exact yields_items_cons hn (h.flowItems false r hr)
  · apply (h.node false false r hr).bind
    rintro ⟨n, r⟩ ⟨hn, hr⟩
    exact yields_items_cons hn (h.flowItems false r hr)

/-- A pair in a flow sequence is a mapping with one entry. -/
theorem pair_succ (h : GrammarKeeps P size fuel) {start : Mark} (hstart : P start)
    (hr : r.Keeps P size) : Yields (Reading.pair (fuel + 1) start r) (GivesNode P size) := by
  have hrest {k : Node Mark} (hk : k.AllPos P) {y : Node Mark × Reading} (hy : GivesNode P size y) :
      Yields (pure (Node.mapping start none [(k, y.1)] y.2.reach, y.2)) (GivesNode P size) := by
    obtain ⟨hv, hr⟩ := hy
    refine yields_ok ⟨Node.allPos_mapping hstart ?_ hr.reach none, hr⟩
    intro e he
    rw [List.mem_singleton.mp he]
    exact ⟨hk, hv⟩
  rw [Reading.pair]
  apply hr.look.bind
  rintro ⟨t, r⟩ ⟨ht, hr⟩
  apply yields_absent_or ht hr.tail (h.node false false r hr)
  rintro ⟨k, r⟩ ⟨hk, hr⟩
  apply hr.look.bind
  rintro ⟨t, r⟩ ⟨ht, hr⟩
  dsimp only
  split
  · apply hr.tail.look.bind
    rintro ⟨t, r⟩ ⟨ht, hr⟩
    exact yields_absent_or ht hr (h.node false false r hr) fun y hy => hrest hk hy
  · exact hrest hk (givesNode_absent ht hr)

end GrammarKeeps

/-- Every rule of the grammar gives positions among the marks of the tokens. -/
theorem grammarKeeps (P : Mark → Prop) (size fuel : Nat) : GrammarKeeps P size fuel := by
  induction fuel with
  | zero => constructor <;> intros <;> exact yields_error _
  | succ fuel ih =>
      constructor
      · exact fun block indentless r hr => ih.node_succ block indentless hr
      · exact fun block indentless anchor tag r hr => ih.content_succ block indentless anchor tag hr
      · exact fun r hr => ih.blockItems_succ hr
      · exact fun r hr => ih.indentlessItems_succ hr
      · exact fun r hr => ih.blockEntries_succ hr
      · exact fun r hr => ih.blockValue_succ hr
      · exact fun first r hr => ih.flowEntries_succ first hr
      · exact fun r hr => ih.flowValue_succ hr
      · exact fun first r hr => ih.flowItems_succ first hr
      · exact fun start r hstart hr => ih.pair_succ hstart hr

end Grammar

section Documents

theorem Keeps.forgetAnchors (h : r.Keeps P size) : { r with anchors := [] }.Keeps P size :=
  ⟨h.tokens, h.length, h.reach⟩

/-- A document behind its mark has a root, or an absent one. -/
theorem Keeps.explicitDocument (h : r.Keeps P size) (fuel : Nat) :
    Yields (r.explicitDocument fuel) fun x => P x.1 ∧ GivesNode P size x.2 := by
  rw [Reading.explicitDocument]
  apply (h.dropWhile _).look.bind
  rintro ⟨t, r⟩ ⟨ht, hr⟩
  dsimp only
  split
  · apply hr.tail.look.bind
    rintro ⟨u, r⟩ ⟨hu, hr⟩
    apply yields_ite (yields_ok ⟨ht, givesNode_absent hu hr⟩)
    apply ((grammarKeeps P size fuel).node true false _ hr.forgetAnchors).bind
    rintro ⟨n, r⟩ hn
    exact yields_ok ⟨ht, hn⟩
  · exact yields_error _

/-- A document, and the reading behind it. -/
def GivesDocument (P : Mark → Prop) (size : Nat) (x : Document Mark × Reading) : Prop :=
  x.1.AllPos P ∧ x.2.Keeps P size

/-- The end of a document behind its root. -/
theorem yields_document {start : Mark} {root : Node Mark} (hstart : P start)
    (hroot : GivesNode P size (root, r)) :
    Yields (r.look >>= fun x => pure (some ((⟨start, root, x.1.mark⟩ : Document Mark),
      if x.1.token = .documentEnd then x.2.tail else x.2)))
      fun o => ∀ d ∈ o, GivesDocument P size d := by
  apply hroot.2.look.bind
  rintro ⟨t, r⟩ ⟨ht, hr⟩
  apply yields_ok
  intro d hd
  obtain rfl := Option.mem_some_iff.mp hd
  refine ⟨Document.allPos_of_root hstart hroot.1 ht, ?_⟩
  dsimp only
  split
  · exact hr.tail
  · exact hr

/-- A document ends at the token behind its root. -/
theorem Keeps.document (h : r.Keeps P size) (fuel : Nat) (first : Bool) :
    Yields (r.document fuel first) fun o => ∀ d ∈ o, GivesDocument P size d := by
  rw [Reading.document]
  have hnext : (if first = true then r else r.dropWhile (· = .documentEnd)).Keeps P size := by
    split
    · exact h
    · exact h.dropWhile _
  apply hnext.look.bind
  rintro ⟨t, r⟩ ⟨ht, hr⟩
  dsimp only
  apply yields_ite
  · apply yields_ok
    intro d hd
    cases hd
  · apply yields_ite
    · apply (hr.explicitDocument fuel).bind
      rintro ⟨start, root, r⟩ ⟨hstart, hroot⟩
      exact yields_document hstart hroot
    · have hnode := (grammarKeeps P size fuel).node true false _ hr.forgetAnchors
      apply (hnode.map (Q := fun x => P x.1 ∧ GivesNode P size x.2) fun x hx => ⟨ht, hx⟩).bind
      rintro ⟨start, root, r⟩ ⟨hstart, hroot⟩
      exact yields_document hstart hroot

end Documents

end Reading

namespace Documents

variable {P : Mark → Prop} {size : Nat}

/-- The documents that are complete lie within the marks of the tokens. -/
theorem allPos_ofReading {r : Reading} (h : r.Keeps P size) (fuel count : Nat) (first : Bool) :
    ∀ d ∈ (ofReading fuel count first r).complete, d.AllPos P := by
  induction count generalizing first r with
  | zero =>
      intro d hd
      cases hd
  | succ count ih =>
      intro d hd
      rw [ofReading] at hd
      split at hd
      · cases hd
      · cases hd
      · next d' r' hread =>
          obtain ⟨hd', hr'⟩ := (h.document fuel first).of_ok hread (d', r') rfl
          rcases List.mem_cons.mp hd with rfl | hd
          · exact hd'
          · exact ih hr' false d hd

/-- All positions in the documents of a text are in the text, but for the end of a text whose last
line is not ended: what is left out there stands at the start of the line after. -/
theorem allPos_ofText {text : String} {d : Document Mark} (h : d ∈ (ofText text).complete) :
    d.AllPos (Mark.IsPlaced text.toList) := by
  have hstart : Mark.start.IsPlaced text.toList := Or.inl ⟨[], text.toList, rfl, rfl⟩
  have hkeeps : (Reading.ofStream (Token.stream text)).Keeps (Mark.IsPlaced text.toList)
      (Token.stream text).tokens.length :=
    ⟨fun d hd => deliveredIn_of_mem_stream hd, Nat.le_refl _, hstart⟩
  exact allPos_ofReading hkeeps.tail _ _ _ d h

theorem mem_complete_of_first? {ds : Documents} {d : Document Mark}
    (h : ds.first? = .ok (some d)) : d ∈ ds.complete := by
  rw [first?] at h
  split at h
  · next hcomplete =>
      obtain rfl := Option.some.inj (Except.ok.inj h)
      rw [hcomplete]
      exact List.mem_cons_self
  · cases h
  · cases h

end Documents

end ManifestForm.Yaml
