import ManifestForm.PathMap.Query
import ManifestForm.Yaml.Node.Grammar

/-! # The path map of a text

A path map takes notice of every node of one document as it opens and closes. A notice does not say
whether a scalar is a key, a value or an item, so closed nodes wait as fragments until the
collection around them closes and tells their roles. In a mapping keys and values take turns, and
a value matters only for the paths inside it; the items of a sequence are numbered. Fragments of the
outermost collection become entries of the map; others become children of their collection's
fragment.

The map of a text is that of its first document. An alias counts as the scalar `*`.
-/

namespace ManifestForm

namespace PathMap

def openNode (l : Location) (m : PathMap) : PathMap :=
  { m with
    entries := if m.begun then m.entries else m.entries.put [] l
    path := m.path ++ [m.lastScalar]
    opened := l :: m.opened
    begun := true }

def closeScalar (text : String) (l : Location) (m : PathMap) : PathMap :=
  let path := m.path.dropLast
  let m := { m with path, lastScalar := text }
  if path.isEmpty then { m with entries := m.entries.put [text] l }
  else { m with fragments := m.fragments ++ [.mk (path ++ [text]) l []] }

/-- The fragments below the innermost open node, the latest first, and the others in order. -/
def takeBelow (m : PathMap) : List Fragment × List Fragment :=
  let (below, others) := m.fragments.partition (·.isBelow m.path)
  (below.reverse, others)

/-- Drops every other fragment, the first one included, unless there are children in it. Walking
backwards, these are the values. -/
def dropValues : Bool → List Fragment → List Fragment
  | _, [] => []
  | isValue, f :: fs =>
    if isValue && f.children.isEmpty then dropValues (!isValue) fs
    else f :: dropValues (!isValue) fs

/-- The fragments without those whose offset stands before them. -/
def distinctOffsets (seen : List Nat) : List Fragment → List Fragment
  | [] => []
  | f :: fs =>
    if seen.contains f.location.offset then distinctOffsets seen fs
    else f :: distinctOffsets (f.location.offset :: seen) fs

/-- The items with their numbers, which count down. -/
def numbered : List Fragment → List (String × Fragment)
  | [] => []
  | f :: fs => (toString fs.length, f) :: numbered fs

/-- Ends the innermost open node, which is a collection with these fragments in it, each with the
path at which it is recorded and its path from here. -/
def closeWith (parts : List (Path × Path × Fragment)) (others : List Fragment) (l : Location)
    (m : PathMap) : PathMap :=
  if m.path.length = 1 then
    { m with
      entries := parts.foldl (fun es (p, _, f) => es.resolve p f) m.entries
      path := m.path.dropLast
      fragments := others }
  else
    let children := parts.map fun (_, p, f) => f.withPath p
    { m with path := m.path.dropLast, fragments := others ++ [.mk m.path l children] }

def closeMapping (l : Location) (m : PathMap) : PathMap :=
  let (below, others) := m.takeBelow
  let parts := (dropValues true below).map fun f => (f.path, f.path.drop m.path.length, f)
  m.closeWith parts others l

def closeSequence (l : Location) (m : PathMap) : PathMap :=
  let (below, others) := m.takeBelow
  let parts := (numbered (distinctOffsets [] below)).map fun (n, f) => (m.path ++ [n], [n], f)
  m.closeWith parts others l

/-- Takes notice. A collection lies where it opened. -/
def record (m : PathMap) (n : Notice) : PathMap :=
  match n.phase with
  | .opening => m.openNode n.location
  | .closing =>
    let opened := m.opened.headD n.location
    let m := { m with opened := m.opened.drop 1 }
    match n.kind with
    | .scalar text => m.closeScalar text n.location
    | .mapping => m.closeMapping opened
    | .sequence => m.closeSequence opened

def recordAll (m : PathMap) (ns : List Notice) : PathMap := ns.foldl record m

end PathMap

/-- The bytes of the first `n` characters. -/
def byteOffset : List Char → Nat → Nat
  | _, 0 => 0
  | [], _ => 0
  | c :: cs, n + 1 => c.utf8Size + byteOffset cs n

namespace PathMap

/-- The place of a mark in the text. -/
def locate (text : List Char) (m : Yaml.Mark) : Location :=
  ⟨m.line - 1, m.column, byteOffset text m.index⟩

def scalarNotices (text : String) (l : Location) : List Notice :=
  [⟨.opening, .scalar text, l⟩, ⟨.closing, .scalar text, l⟩]

/-- The notices of an event. -/
def notices (l : Location) : Yaml.Event → List Notice
  | .scalar text .. => scalarNotices text l
  | .alias _ => scalarNotices "*" l
  | .mappingStart _ => [⟨.opening, .mapping, l⟩]
  | .mappingEnd => [⟨.closing, .mapping, l⟩]
  | .sequenceStart _ => [⟨.opening, .sequence, l⟩]
  | .sequenceEnd => [⟨.closing, .sequence, l⟩]
  | .documentStart | .documentEnd => []

/-- The notices of a tree in the order of the text. -/
def nodeNotices (n : Yaml.Node Location) : List Notice :=
  n.events.flatMap fun (e, l) => notices l e

/-- The map of the first document; without one it is empty. -/
def ofText (text : String) : Except Yaml.Fault PathMap :=
  (Yaml.Documents.ofText text).first?.map fun
    | none => forText text
    | some d => (forText text).recordAll (nodeNotices (d.root.mapPos (locate text.toList)))

end PathMap

end ManifestForm
