import ManifestForm.Json.Decode
import ManifestForm.Text.Quoted

/-! # Simplified specs

What a form shows of a schema: a tree of named, typed and documented nodes. For an array the
children are those of its items.

A path cuts a subtree out of a spec. It steps from child to child. Numeric segments address the
items of a sequence and are skipped, because one node describes all items.
-/

namespace ManifestForm

structure Spec where
  name : String
  type : String
  isArray : Bool
  description : String
  /-- The documentation of the composite type behind the field. -/
  typeDescription : String
  children : List Spec
  deriving Repr

namespace Spec

def child? (name : String) (s : Spec) : Option Spec := s.children.find? (·.name = name)

def childNames (s : Spec) : List String := s.children.map (·.name)

def isLeaf (s : Spec) : Bool := s.children.isEmpty

/-- The tree with nothing more than `depth` levels below its root. -/
def limitDepth : Nat → Spec → Spec
  | 0, s => { s with children := [] }
  | depth + 1, s => { s with children := s.children.map (limitDepth depth) }

def toJson : Spec → Json
  | ⟨name, type, isArray, description, typeDescription, children⟩ =>
    .obj [("name", .str name), ("type", .str type), ("isArray", .bool isArray),
      ("description", .str description), ("typeDescription", .str typeDescription),
      ("children", .arr (childrenJson children))]
where
  childrenJson : List Spec → List Json
    | [] => []
    | s :: ss => toJson s :: childrenJson ss

/-- Decodes values that nest at most `levels - 1` deep. -/
def decodeWithin (levels : Nat) : Decoder Spec :=
  match levels with
  | 0 => fun v => .error (.invalidType v "struct SimplifiedSpec")
  | levels + 1 =>
    (Spec.mk
      <$> Record.required "name" Decoder.string
      <*> Record.required "type" Decoder.string
      <*> Record.required "isArray" Decoder.bool
      <*> Record.required "description" Decoder.string
      <*> Record.required "typeDescription" Decoder.string
      <*> Record.required "children" (Decoder.list (decodeWithin levels))).decoder "SimplifiedSpec"

def decode : Decoder Spec := fun v => decodeWithin (v.height + 1) v

end Spec

/-- What is wrong with the shape of a schema. -/
inductive ShapeFault where
  | unresolvedReference
  | composition (members : Nat)
  deriving DecidableEq, Repr

inductive SpecError where
  | unsupported (field : String) (fault : ShapeFault)
  | pathNotFound (path : List String)
  deriving DecidableEq, Repr

def ShapeFault.message : ShapeFault → String
  | unresolvedReference => "unresolved reference"
  | composition members => s!"allOf with {members} members"

def SpecError.message : SpecError → String
  | unsupported field fault =>
    "unsupported schema for " ++ Text.quoted field ++ ": " ++ fault.message
  | pathNotFound path => "pathInSpec " ++ String.intercalate "," path ++ " not found in spec"

namespace Spec

/-- One digit or more, of ASCII only. -/
def isIndex (segment : String) : Bool :=
  let cs := segment.toList
  !cs.isEmpty && cs.all fun c => '0' ≤ c && c ≤ '9'

/-- The node at the end of a path. -/
def descend? : List String → Spec → Option Spec
  | [], s => some s
  | segment :: path, s =>
    if isIndex segment then descend? path s
    else (s.child? segment).bind (descend? path)

/-- The node at the end of the path, limited in depth. -/
def project (path : List String) (depth : Nat) (s : Spec) : Except SpecError Spec :=
  match descend? path s with
  | none => .error (.pathNotFound path)
  | some node => .ok (node.limitDepth depth)

end Spec

end ManifestForm
