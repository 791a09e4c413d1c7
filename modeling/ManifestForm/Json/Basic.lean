import ManifestForm.Number.Binary64

/-! # JSON values

Objects keep their entries in order. `insert` overwrites in place or appends, so a repeated key
keeps its first position and its last value; `swapErase` fills the hole with the last entry.
-/

namespace ManifestForm

/-- A JSON number: an integer, or a double when it was written with a fraction or an exponent or
does not fit 64 bits. -/
inductive Number where
  | int (value : Int)
  | float (value : Binary64)
  deriving DecidableEq, Repr

inductive Json where
  | null
  | bool (value : Bool)
  | num (value : Number)
  | str (text : String)
  | arr (items : List Json)
  | obj (entries : List (String × Json))
  deriving Repr

/-- The entries of an object in order. -/
abbrev Json.Object := List (String × Json)

namespace Json

/-- The greatest integer that a JSON number holds exactly. -/
def maxInt : Int := (Nat.pow 2 64 : Nat) - 1

def nat (n : Nat) : Json := .num (.int n)

def strings (texts : List String) : Json := .arr (texts.map .str)

def ofOption (encode : α → Json) : Option α → Json
  | none => .null
  | some a => encode a

/-- An entry that is left out when there is nothing in it. -/
def entry (name : String) : Option Json → Object
  | none => []
  | some v => [(name, v)]

def isNull : Json → Bool
  | .null => true
  | _ => false

def string? : Json → Option String
  | .str s => some s
  | _ => none

def array? : Json → Option (List Json)
  | .arr xs => some xs
  | _ => none

def object? : Json → Option Object
  | .obj kvs => some kvs
  | _ => none

/-- The member of an object; anything else has no members. -/
def get? (name : String) : Json → Option Json
  | .obj kvs => kvs.lookup name
  | _ => none

/-- Brackets around brackets: 0 for a scalar, one more than the deepest child otherwise. -/
def height : Json → Nat
  | .arr xs => heightAll xs + 1
  | .obj kvs => heightEntries kvs + 1
  | _ => 0
where
  heightAll : List Json → Nat
    | [] => 0
    | x :: xs => max (height x) (heightAll xs)
  heightEntries : List (String × Json) → Nat
    | [] => 0
    | (_, x) :: kvs => max (height x) (heightEntries kvs)

namespace Object

def keys (o : Object) : List String := o.map (·.1)

def contains (o : Object) (name : String) : Bool := o.any (·.1 == name)

/-- Overwrites the value in place, or appends a new entry. -/
def insert : Object → String → Json → Object
  | [], name, value => [(name, value)]
  | (k, v) :: o, name, value =>
    if k = name then (k, value) :: o else (k, v) :: insert o name value

/-- Inserts the entries one after the other. -/
def ofList (kvs : List (String × Json)) : Object :=
  kvs.foldl (fun o kv => insert o kv.1 kv.2) []

/-- Removes a key; the last entry moves to its place. -/
def swapErase (name : String) : Object → Object
  | [] => []
  | (k, v) :: o =>
    if k = name then
      match o.getLast? with
      | none => []
      | some last => last :: o.dropLast
    else (k, v) :: swapErase name o

end Object

end Json

end ManifestForm
