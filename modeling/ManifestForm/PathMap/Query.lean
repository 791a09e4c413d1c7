import ManifestForm.Text.Basic

/-! # Paths of a document and their places

A path map has an entry for each path of a document, with the place at which it stands. It is asked
by path, by dotted text, by line and by byte offset. While the document is read, closed nodes whose
roles are not known yet wait in it as fragments.
-/

namespace ManifestForm

/-- A place in the text, all counted from 0; the offset is in bytes. -/
structure Location where
  line : Nat
  column : Nat
  offset : Nat
  deriving DecidableEq, Repr

/-- The segments from the root of a document to a node. -/
abbrev Path := List String

namespace PathMap

inductive Phase where
  | opening
  | closing
  deriving DecidableEq, Repr

inductive NodeKind where
  | scalar (text : String)
  | mapping
  | sequence
  deriving DecidableEq, Repr

/-- A node opens or closes. -/
structure Notice where
  phase : Phase
  kind : NodeKind
  location : Location
  deriving DecidableEq, Repr

/-- A closed node whose role is not known yet. The path of a child starts at the fragment. -/
inductive Fragment where
  | mk (path : Path) (location : Location) (children : List Fragment)

namespace Fragment

def path : Fragment → Path
  | .mk p _ _ => p

def location : Fragment → Location
  | .mk _ l _ => l

def children : Fragment → List Fragment
  | .mk _ _ cs => cs

def withPath (p : Path) : Fragment → Fragment
  | .mk _ l cs => .mk p l cs

/-- Whether the path goes on beyond `parent`. -/
def isBelow (parent : Path) (f : Fragment) : Bool :=
  parent.length < f.path.length && parent.isPrefixOf f.path

end Fragment

/-- Paths in the order in which they were recorded. -/
abbrev Entries := List (Path × Location)

namespace Entries

/-- Overwrites the location of a path, or appends it. -/
def put (p : Path) (l : Location) : Entries → Entries
  | [] => [(p, l)]
  | (q, m) :: es => if q = p then (q, l) :: es else (q, m) :: put p l es

/-- Keeps the location with the lesser offset, the one recorded first if they are equal. -/
def lower (p : Path) (l : Location) : Entries → Entries
  | [] => [(p, l)]
  | (q, m) :: es =>
    if q = p then (q, if l.offset < m.offset then l else m) :: es else (q, m) :: lower p l es

/-- Records a fragment and everything in it under the path `p`, which starts with a segment for
the root. -/
def resolve (p : Path) (es : Entries) : Fragment → Entries
  | .mk _ l children => resolveAll p (es.lower (p.drop 1) l) children
where
  resolveAll (p : Path) (es : Entries) : List Fragment → Entries
    | [] => es
    | .mk q l cs :: rest => resolveAll p (resolve (p ++ q) es (.mk q l cs)) rest

end Entries

end PathMap

structure PathMap where
  entries : PathMap.Entries
  /-- Segments for the open nodes, outermost first. The first stands for the root, and each is the
  text of the scalar closed last. -/
  path : Path
  /-- Where the open nodes opened, innermost first. -/
  opened : List Location
  lastScalar : String
  fragments : List PathMap.Fragment
  /-- A node has opened. -/
  begun : Bool
  /-- The byte offsets at which the lines of the text start. -/
  lineStarts : List Nat

namespace PathMap

def empty : PathMap := ⟨[], [], [], "", [], false, []⟩

/-- The offsets behind the line feeds of a text that starts at `offset`. -/
def lineStartsFrom (offset : Nat) : List Char → List Nat
  | [] => []
  | c :: cs =>
    let next := offset + c.utf8Size
    if c = '\n' then next :: lineStartsFrom next cs else lineStartsFrom next cs

/-- An empty map that knows the lines of the text. -/
def forText (text : String) : PathMap :=
  { empty with lineStarts := 0 :: lineStartsFrom 0 text.toList }

/-- A place as shown to people: line and column counted from 1. -/
structure Place where
  line : Nat
  column : Nat
  offset : Nat
  deriving DecidableEq, Repr

def Place.ofLocation (l : Location) : Place := ⟨l.line + 1, l.column + 1, l.offset⟩

def find? (p : Path) (m : PathMap) : Option Place := (m.entries.lookup p).map .ofLocation

/-- The segments of a dotted path such as `.spec.containers[0].name`. An opening bracket is a dot
and a closing one is nothing. -/
def segments (dotted : String) : Path :=
  let cs := dotted.toList.filter (· ≠ ']')
  let pieces := Text.splitOn (fun c => c = '.' || c = '[') cs
  (pieces.filter fun piece => !piece.isEmpty).map String.ofList

def lookup (dotted : String) (m : PathMap) : Option Place := m.find? (segments dotted)

/-- The line, counted from 0, that holds the byte at an offset. -/
def lineOf (offset : Nat) (m : PathMap) : Nat :=
  (m.lineStarts.takeWhile (· ≤ offset)).length - 1

/-- The entry with the greatest line, the last one of several. -/
def lastOnGreatestLine : Entries → Option (Path × Location)
  | [] => none
  | e :: es =>
    match lastOnGreatestLine es with
    | none => some e
    | some best => if best.2.line < e.2.line then some e else some best

/-- The path of the nearest node that starts on the line or before it. -/
def pathAtLine (line : Nat) (m : PathMap) : Option Path :=
  (lastOnGreatestLine (m.entries.filter fun e => e.2.line ≤ line)).map (·.1)

/-- The path of the nearest node that starts on the line of the byte or before it. -/
def pathAtOffset (offset : Nat) (m : PathMap) : Option Path := m.pathAtLine (m.lineOf offset)

end PathMap

end ManifestForm
