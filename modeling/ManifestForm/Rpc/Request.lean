import ManifestForm.Json.Parser

/-! # Requests

A request is an object with the members `id`, `method` and `params`, of which the method must be
there and none may be repeated, or an array of them in this order. Other members are passed over.
-/

namespace ManifestForm.Rpc

open Json.Parser (Result skipBlank)

structure Request where
  id : Json
  method : String
  params : Json
  deriving Repr

/-- The members of a request that have been read. -/
structure Draft where
  id : Option Json
  method : Option String
  params : Option Json

namespace Draft

def empty : Draft := ⟨none, none, none⟩

/-- Without an id or parameters they are null. -/
def request? (d : Draft) : Option Request :=
  d.method.map fun method => ⟨d.id.getD .null, method, d.params.getD .null⟩

end Draft

namespace Request

/-- Levels of brackets that a member may nest within its request. -/
def memberDepth : Nat := Json.Parser.maxDepth - 1

def readValue (fuel : Nat) (s : List Char) : Result Json := Json.Parser.value fuel memberDepth s

def readMethod (s : List Char) : Result String :=
  match skipBlank s with
  | '"' :: r => (Json.Parser.stringTail r).map fun (cs, rest) => (String.ofList cs, rest)
  | _ => none

/-- The member with this key, added to those read before. -/
def member (fuel : Nat) (key : String) (d : Draft) (s : List Char) : Result Draft :=
  match key with
  | "id" =>
    if d.id.isSome then none
    else (readValue fuel s).map fun (v, r) => ({ d with id := some v }, r)
  | "method" =>
    if d.method.isSome then none
    else (readMethod s).map fun (name, r) => ({ d with method := some name }, r)
  | "params" =>
    if d.params.isSome then none
    else (readValue fuel s).map fun (v, r) => ({ d with params := some v }, r)
  | _ => (Json.Parser.skipValue fuel s).map fun r => (d, r)

/-- One member or more, and the closing brace. -/
def members : Nat → Draft → List Char → Result Draft
  | 0, _, _ => none
  | fuel + 1, d, s =>
    match Json.Parser.key s with
    | none => none
    | some (key, r) =>
      match member fuel key d r with
      | none => none
      | some (d, r) =>
        match skipBlank r with
        | '}' :: r => some (d, r)
        | ',' :: r => members fuel d r
        | _ => none

/-- The members in their order, and the closing bracket. -/
def elements (fuel : Nat) (s : List Char) : Result Draft :=
  match readValue fuel s with
  | none => none
  | some (id, r) =>
    match skipBlank r with
    | ',' :: r =>
      match readMethod r with
      | none => none
      | some (method, r) =>
        match skipBlank r with
        | ']' :: r => some (⟨some id, some method, none⟩, r)
        | ',' :: r =>
          match readValue fuel r with
          | none => none
          | some (params, r) =>
            match skipBlank r with
            | ']' :: r => some (⟨some id, some method, some params⟩, r)
            | _ => none
        | _ => none
    | _ => none

def draft (s : List Char) : Result Draft :=
  let fuel := Json.Parser.fuelFor s
  match skipBlank s with
  | '{' :: r =>
    match skipBlank r with
    | '}' :: r => some (.empty, r)
    | _ => members fuel .empty r
  | '[' :: r => elements fuel r
  | _ => none

/-- The request on a line. -/
def parse? (s : List Char) : Option Request :=
  (Json.Parser.complete (draft s)).bind Draft.request?

end Request

end ManifestForm.Rpc
