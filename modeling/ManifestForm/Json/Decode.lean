import ManifestForm.Json.Basic
import ManifestForm.Number.Shortest
import ManifestForm.Text.Quoted

/-! # Decoding JSON values

A decoder turns a value into data or says why it cannot. A record is read from an object, in any
order and with unknown keys ignored, or from an array that holds its fields in order. Of several
faults in an object the one that stands first in it is reported; absent fields come after all
others, in the order of the record.
-/

namespace ManifestForm

inductive DecodeError where
  | missingField (name : String)
  | invalidType (got : Json) (want : String)
  | invalidValue (got : Int) (want : String)
  | tooFew (count : Nat) (record : String) (fields : Nat)
  | tooMany (count : Nat)
  | noVariant (name : String)

namespace DecodeError

/-- How a value of the wrong type is called. -/
def describe : Json → String
  | .null => "null"
  | .bool b => s!"boolean `{b}`"
  | .num (.int n) => s!"integer `{n}`"
  | .num (.float x) => s!"floating point `{String.ofList x.text}`"
  | .str s => "string " ++ Text.quoted s
  | .arr _ => "sequence"
  | .obj _ => "map"

def message : DecodeError → String
  | missingField name => s!"missing field `{name}`"
  | invalidType got want => s!"invalid type: {describe got}, expected {want}"
  | invalidValue got want => s!"invalid value: integer `{got}`, expected {want}"
  | tooFew count record fields =>
    s!"invalid length {count}, expected struct {record} with {fields} element" ++
      (if fields = 1 then "" else "s")
  | tooMany count => s!"invalid length {count}, expected fewer elements in array"
  | noVariant name => s!"data did not match any variant of untagged enum {name}"

end DecodeError

abbrev Decoder (α : Type) := Json → Except DecodeError α

namespace Decoder

def string : Decoder String
  | .str s => .ok s
  | v => .error (.invalidType v "a string")

def bool : Decoder Bool
  | .bool b => .ok b
  | v => .error (.invalidType v "a boolean")

/-- A number of 64 bits without a sign. -/
def size : Decoder Nat
  | .num (.int n) =>
    if 0 ≤ n ∧ n ≤ Json.maxInt then .ok n.toNat else .error (.invalidValue n "usize")
  | v => .error (.invalidType v "usize")

def any : Decoder Json := .ok

def list (item : Decoder α) : Decoder (List α)
  | .arr xs => xs.mapM item
  | v => .error (.invalidType v "a sequence")

/-- An object as it is. -/
def object : Decoder Json.Object
  | .obj kvs => .ok kvs
  | v => .error (.invalidType v "a map")

/-- An object whose values are decoded in order. -/
def dictionary (value : Decoder α) : Decoder (List (String × α))
  | .obj kvs => kvs.mapM fun (k, v) => (value v).map fun a => (k, a)
  | v => .error (.invalidType v "a map")

/-- Null is nothing. -/
def optional (some? : Decoder α) : Decoder (Option α)
  | .null => .ok none
  | v => (some? v).map some

/-- The first decoder that succeeds. -/
def oneOf (name : String) (variants : List (Decoder α)) : Decoder α := fun v =>
  match variants.findSome? fun d => (d v).toOption with
  | some a => .ok a
  | none => .error (.noVariant name)

end Decoder

/-- What the fields of a record are read from. -/
inductive Layout where
  | entries (kvs : List (String × Json))
  | elements (xs : List Json)

namespace Layout

/-- The position of the first entry with a key, and its value. -/
def position? (name : String) : Nat → List (String × Json) → Option (Nat × Json)
  | _, [] => none
  | i, (k, v) :: kvs => if k = name then some (i, v) else position? name (i + 1) kvs

/-- A field by its name or by its place in the record, with the position at which it stands. -/
def find? (name : String) (place : Nat) : Layout → Option (Nat × Json)
  | .entries kvs => position? name 0 kvs
  | .elements xs => (xs[place]?).map fun v => (place, v)

def size : Layout → Nat
  | .entries kvs => kvs.length
  | .elements xs => xs.length

end Layout

/-- What is wrong with a field. -/
inductive FieldFault where
  | absent (name : String)
  | invalid (e : DecodeError)

/-- A record with the number of its fields. Reading starts at the given place, and a fault comes
with the position at which it stands. -/
structure Record (α : Type) where
  fields : Nat
  read : Nat → Layout → Except (Nat × FieldFault) α

namespace Record

def present (decoder : Decoder α) (position : Nat) (v : Json) : Except (Nat × FieldFault) α :=
  match decoder v with
  | .ok a => .ok a
  | .error e => .error (position, .invalid e)

/-- A field that must be there. -/
def required (name : String) (decoder : Decoder α) : Record α :=
  ⟨1, fun place layout =>
    match layout.find? name place with
    | some (position, v) => present decoder position v
    | none => .error (layout.size, .absent name)⟩

/-- A field that may be left out. -/
def withDefault (name : String) (default : α) (decoder : Decoder α) : Record α :=
  ⟨1, fun place layout =>
    match layout.find? name place with
    | some (position, v) => present decoder position v
    | none => .ok default⟩

/-- A field that may be left out or null. -/
def optional (name : String) (decoder : Decoder α) : Record (Option α) :=
  withDefault name none (Decoder.optional decoder)

/-- Both parts; of two faults the one that stands first. -/
def both (f : Record (α → β)) (x : Record α) : Record β :=
  ⟨f.fields + x.fields, fun place layout =>
    match f.read place layout, x.read (place + f.fields) layout with
    | .ok g, .ok a => .ok (g a)
    | .error e, .error e' => .error (if e'.1 < e.1 then e' else e)
    | .error e, .ok _ => .error e
    | .ok _, .error e => .error e⟩

def pure (a : α) : Record α := ⟨0, fun _ _ => .ok a⟩

instance : Applicative Record where
  pure := Record.pure
  seq f x := both f (x ())

/-- The decoder of a record under its name. -/
def decoder (name : String) (r : Record α) : Decoder α
  | .obj kvs =>
    match r.read 0 (.entries kvs) with
    | .ok a => .ok a
    | .error (_, .invalid e) => .error e
    | .error (_, .absent field) => .error (.missingField field)
  | .arr xs =>
    match r.read 0 (.elements xs) with
    | .ok a => if r.fields < xs.length then .error (.tooMany xs.length) else .ok a
    | .error (_, .invalid e) => .error e
    | .error (_, .absent _) => .error (.tooFew xs.length name r.fields)
  | v => .error (.invalidType v s!"struct {name}")

end Record

end ManifestForm
