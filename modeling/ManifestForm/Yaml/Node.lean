import ManifestForm.Yaml.Token

/-! # Document trees

A node keeps the positions at which it starts and ends; a document, those of its two marks. Anchors
are numbers that no two nodes share. `Node.events` flattens a tree into the order in which its
parts stand in the text.

Typed data is read out of a tree by readers of texts, flags, lists and the fields of a mapping.
Every scalar is a text as written. Where nothing may stand, a plain scalar that is empty or spells
null stands for nothing; a quoted one never does. Aliases are followed to the nodes that they name.
-/

namespace ManifestForm.Yaml

inductive Node (Pos : Type) where
  | scalar (pos : Pos) (text : String) (style : Style) (tag : Option Tag) (anchor : Option Nat)
  | alias (pos : Pos) (anchor : Nat)
  | sequence (start : Pos) (anchor : Option Nat) (items : List (Node Pos)) (stop : Pos)
  | mapping (start : Pos) (anchor : Option Nat) (entries : List (Node Pos × Node Pos)) (stop : Pos)
  deriving Repr

structure Document (Pos : Type) where
  start : Pos
  root : Node Pos
  stop : Pos
  deriving Repr

inductive Event where
  | documentStart
  | documentEnd
  | scalar (text : String) (style : Style) (tag : Option Tag) (anchor : Option Nat)
  | alias (anchor : Nat)
  | sequenceStart (anchor : Option Nat)
  | sequenceEnd
  | mappingStart (anchor : Option Nat)
  | mappingEnd
  deriving DecidableEq, Repr

namespace Node

variable {Pos Pos' : Type}

/-- What stands where a node is left out. -/
def absent (pos : Pos) : Node Pos := .scalar pos "~" .omitted none none

/-- The events of a node, each at its position. -/
def events : Node Pos → List (Event × Pos)
  | .scalar pos text style tag anchor => [(.scalar text style tag anchor, pos)]
  | .alias pos anchor => [(.alias anchor, pos)]
  | .sequence start anchor items stop =>
    (.sequenceStart anchor, start) :: (itemEvents items ++ [(.sequenceEnd, stop)])
  | .mapping start anchor entries stop =>
    (.mappingStart anchor, start) :: (entryEvents entries ++ [(.mappingEnd, stop)])
where
  itemEvents : List (Node Pos) → List (Event × Pos)
    | [] => []
    | n :: ns => events n ++ itemEvents ns
  entryEvents : List (Node Pos × Node Pos) → List (Event × Pos)
    | [] => []
    | (k, v) :: es => events k ++ events v ++ entryEvents es

/-- The same tree at other positions. -/
def mapPos (f : Pos → Pos') : Node Pos → Node Pos'
  | .scalar pos text style tag anchor => .scalar (f pos) text style tag anchor
  | .alias pos anchor => .alias (f pos) anchor
  | .sequence start anchor items stop => .sequence (f start) anchor (mapItems items) (f stop)
  | .mapping start anchor entries stop => .mapping (f start) anchor (mapEntries entries) (f stop)
where
  mapItems : List (Node Pos) → List (Node Pos')
    | [] => []
    | n :: ns => mapPos f n :: mapItems ns
  mapEntries : List (Node Pos × Node Pos) → List (Node Pos' × Node Pos')
    | [] => []
    | (k, v) :: es => (mapPos f k, mapPos f v) :: mapEntries es

end Node

def Document.events (d : Document Pos) : List (Event × Pos) :=
  (.documentStart, d.start) :: (d.root.events ++ [(.documentEnd, d.stop)])

variable {Pos : Type} {α : Type}

/-- The anchored nodes of a tree in the order of the text. -/
def Node.anchored : Node Pos → List (Nat × Node Pos)
  | .scalar pos text style tag anchor => own anchor (.scalar pos text style tag anchor)
  | .alias _ _ => []
  | .sequence start anchor items stop =>
    own anchor (.sequence start anchor items stop) ++ anchoredItems items
  | .mapping start anchor entries stop =>
    own anchor (.mapping start anchor entries stop) ++ anchoredEntries entries
where
  own (anchor : Option Nat) (n : Node Pos) : List (Nat × Node Pos) :=
    anchor.toList.map fun id => (id, n)
  anchoredItems : List (Node Pos) → List (Nat × Node Pos)
    | [] => []
    | n :: ns => anchored n ++ anchoredItems ns
  anchoredEntries : List (Node Pos × Node Pos) → List (Nat × Node Pos)
    | [] => []
    | (k, v) :: es => anchored k ++ anchored v ++ anchoredEntries es

/-- A reader of a node within a tree, which is given by its anchored nodes. -/
abbrev Reader (Pos α : Type) := List (Nat × Node Pos) → Node Pos → Option α

namespace Reader

/-- The node that an alias names; any other node is itself. -/
def target (tree : List (Nat × Node Pos)) : Node Pos → Node Pos
  | .alias pos anchor => (tree.lookup anchor).getD (.alias pos anchor)
  | n => n

def spellsNull (text : String) : Bool :=
  text = "~" || text = "null" || text = "Null" || text = "NULL"

/-- The text of a scalar; that of one that was left out is empty. -/
def text : Reader Pos String := fun tree n =>
  match target tree n with
  | .scalar _ _ .omitted _ _ => some ""
  | .scalar _ s _ _ _ => some s
  | _ => none

def flag : Reader Pos Bool := fun tree n =>
  match target tree n with
  | .scalar _ s .plain _ _ =>
    if s = "true" || s = "True" || s = "TRUE" then some true
    else if s = "false" || s = "False" || s = "FALSE" then some false
    else none
  | _ => none

/-- Whether a scalar written plainly stands for nothing: by its tag if it has one, and else by its
text. It is undefined for other text under the tag of null. -/
def isNothing? (text : String) (tag : Option Tag) : Option Bool :=
  match tag with
  | some ⟨"!!", "null"⟩ => if spellsNull text then some true else none
  | some _ => some false
  | none => some (text.isEmpty || spellsNull text)

def optional (some? : Reader Pos α) : Reader Pos (Option α) := fun tree n =>
  match target tree n with
  | .scalar _ _ .omitted _ _ => some none
  | .scalar pos s .plain tag anchor => do
    if ← isNothing? s tag then return none
    return some (← some? tree (.scalar pos s .plain tag anchor))
  | other => (some? tree other).map some

def items (item : Reader Pos α) : Reader Pos (List α) := fun tree n =>
  match target tree n with
  | .sequence _ _ ns _ => ns.mapM (item tree)
  | _ => none

/-- The values of known keys. -/
abbrev Fields (Pos : Type) := List (String × Node Pos)

/-- Keeps the entries with known keys. All keys must be scalars, and a known one stands once. -/
def known (names : List String) (tree : List (Nat × Node Pos)) :
    List (Node Pos × Node Pos) → Option (Fields Pos)
  | [] => some []
  | (k, v) :: es => do
    let name ← text tree k
    let rest ← known names tree es
    if names.contains name then
      if rest.any (·.1 = name) then none else some ((name, v) :: rest)
    else some rest

/-- The fields of a mapping. An empty plain scalar has no fields. -/
def fields (names : List String) : Reader Pos (Fields Pos) := fun tree n =>
  match target tree n with
  | .mapping _ _ entries _ => known names tree entries
  | .scalar _ _ .omitted _ _ => some []
  | .scalar _ s .plain _ _ => if s.isEmpty then some [] else none
  | _ => none

namespace Fields

/-- A field that must be there. -/
def required (tree : List (Nat × Node Pos)) (name : String) (value : Reader Pos α)
    (fs : Fields Pos) : Option α :=
  (fs.lookup name).bind (value tree)

/-- A field that may be left out. -/
def withDefault (tree : List (Nat × Node Pos)) (name : String) (default : α)
    (value : Reader Pos α) (fs : Fields Pos) : Option α :=
  match fs.lookup name with
  | some n => value tree n
  | none => some default

/-- A field that may be left out or stand for nothing. -/
def optional (tree : List (Nat × Node Pos)) (name : String) (value : Reader Pos α)
    (fs : Fields Pos) : Option (Option α) :=
  withDefault tree name none (Reader.optional value) fs

end Fields

end Reader

end ManifestForm.Yaml
