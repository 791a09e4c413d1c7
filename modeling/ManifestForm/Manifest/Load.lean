import ManifestForm.Json.Basic
import ManifestForm.Json.Printer
import ManifestForm.Number.Binary64
import ManifestForm.Yaml.Node
import ManifestForm.Yaml.Node.Grammar
import ManifestForm.Yaml.Token

/-! # Loading manifests

A plain scalar without a tag is read by its text: null, booleans, 64-bit integers in decimal,
hexadecimal and octal, doubles, and else a string. Octal numbers may also be written as four digits
of which the first is 0. A tag of the core handle `!!` takes the place of this rule, and quoted and
block scalars without one are strings.

Values are built from events by a stack of open collections. An anchored value is kept for aliases
once its node is complete; an alias to a node that is not complete yet is null.

A text is a stream of documents. Null documents are dropped, and manifests are the documents that
are mappings. A fault anywhere in the stream leaves no document at all.
-/

namespace ManifestForm.Manifest

/-- Four digits of which the first is 0 and the others are octal. -/
def legacyOctal? : List Char → Option Int
  | ['0', a, b, c] => (Decimal.natural? 8 [a, b, c]).map Int.ofNat
  | _ => none

/-- The integers of a plain scalar. Behind `0x`, `0o` and a plus there may be one more sign. -/
def coreInt? (cs : List Char) : Option Int :=
  let marked? : Option Int :=
    match cs with
    | '0' :: 'x' :: r => Decimal.int64? 16 r
    | '0' :: 'o' :: r => Decimal.int64? 8 r
    | '+' :: r => Decimal.int64? 10 r
    | _ => none
  marked?.orElse fun _ => Decimal.int64? 10 cs

def int (n : Int) : Json := .num (.int n)

def float (x : Binary64) : Json := .num (.float x)

/-- The value of a plain scalar without a tag. -/
def plainValue (text : String) : Json :=
  let cs := text.toList
  match legacyOctal? cs with
  | some n => int n
  | none =>
    match coreInt? cs with
    | some n => int n
    | none =>
      if text = "~" || text = "null" then .null
      else if text = "true" then .bool true
      else if text = "false" then .bool false
      else
        match Decimal.double? cs with
        | some x => float x
        | none => .str text

/-- The value of a scalar under a tag of the core handle. -/
def taggedValue (suffix text : String) : Json :=
  if suffix = "str" then .str text
  else if suffix = "int" then
    match Decimal.int64? 10 text.toList with
    | some n => int n
    | none => .str text
  else if suffix = "float" then
    match Decimal.double? text.toList with
    | some x => float x
    | none => .str text
  else if suffix = "bool" then
    if text = "true" || text = "True" || text = "TRUE" then .bool true
    else if text = "false" || text = "False" || text = "FALSE" then .bool false
    else .str text
  else if suffix = "null" then .null
  else plainValue text

def coreHandle : String := "!!"

def scalarValue (text : String) (style : Yaml.Style) (tag : Option Yaml.Tag) : Json :=
  match tag.filter (·.handle = coreHandle) with
  | some t => taggedValue t.suffix text
  | none => if style.isPlain then plainValue text else .str text

/-- The key that a value stands for: a string itself, and the JSON text of anything else. -/
def keyString : Json → String
  | .str s => s
  | v => v.compact

/-- A collection part way through. -/
inductive Frame where
  | sequence (items : List Json)
  | mapping (entries : Json.Object) (pending : Option String)

/-- The value of a closed collection; a key still waiting for its value is dropped. -/
def Frame.value : Frame → Json
  | .sequence items => .arr items
  | .mapping entries _ => .obj entries

/-- A further child. In a mapping, keys and values take turns. -/
def Frame.add (v : Json) : Frame → Frame
  | .sequence items => .sequence (items ++ [v])
  | .mapping entries none => .mapping entries (some (keyString v))
  | .mapping entries (some k) => .mapping (entries.insert k v) none

structure Builder where
  /-- Open collections with their anchors, innermost first. -/
  stack : List (Frame × Option Nat)
  anchors : List (Nat × Json)
  current : Option Json
  documents : List Json

namespace Builder

def empty : Builder := ⟨[], [], none, []⟩

/-- Keeps the value for aliases. -/
def record (anchor : Option Nat) (v : Json) (b : Builder) : Builder :=
  match anchor with
  | some id => { b with anchors := (id, v) :: b.anchors }
  | none => b

/-- Gives a complete value to the innermost open collection. -/
def insert (v : Json) (b : Builder) : Builder :=
  match b.stack with
  | [] => { b with current := some v }
  | (frame, anchor) :: stack => { b with stack := (frame.add v, anchor) :: stack }

def openFrame (frame : Frame) (anchor : Option Nat) (b : Builder) : Builder :=
  { b with stack := (frame, anchor) :: b.stack }

def close (b : Builder) : Builder :=
  match b.stack with
  | [] => b
  | (frame, anchor) :: stack => ({ b with stack }.record anchor frame.value).insert frame.value

def step (b : Builder) : Yaml.Event → Builder
  | .documentStart => { b with current := none }
  | .documentEnd => { b with current := none, documents := b.documents ++ b.current.toList }
  | .mappingStart anchor => b.openFrame (.mapping [] none) anchor
  | .sequenceStart anchor => b.openFrame (.sequence []) anchor
  | .mappingEnd | .sequenceEnd => b.close
  | .scalar text style tag anchor =>
    let v := scalarValue text style tag
    (b.record anchor v).insert v
  | .alias anchor => b.insert ((b.anchors.lookup anchor).getD .null)

def run (b : Builder) (events : List Yaml.Event) : Builder := events.foldl step b

end Builder

/-- The documents that the events build, null ones left out. -/
def ofEvents (events : List Yaml.Event) : List Json :=
  (Builder.empty.run events).documents.filter fun v => !v.isNull

def documents (content : String) : Except Yaml.Fault (List Json) :=
  (Yaml.Documents.ofText content).all.map fun ds =>
    ofEvents (ds.flatMap fun d => d.events.map (·.1))

/-- The documents that are mappings. -/
def manifests (content : String) : Except Yaml.Fault (List Json.Object) :=
  (documents content).map fun ds => ds.filterMap Json.object?

/-- The first document that is not null, whatever its shape. -/
def first? (content : String) : Except Yaml.Fault (Option Json) :=
  (documents content).map List.head?

end ManifestForm.Manifest
