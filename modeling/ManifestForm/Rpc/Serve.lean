import ManifestForm.Json.Printer
import ManifestForm.Rpc.Call
import ManifestForm.Rpc.Request
import ManifestForm.Text.Basic

/-! # Serving requests line by line

Every line with something on it is answered by one line, in order. A line that is no request is
answered too, with a null id. The first line that is not UTF-8 ends the service.
-/

namespace ManifestForm.Rpc

/-- An answer under the id of its request. -/
structure Response where
  id : Json
  outcome : Except String Json

namespace Response

def toJson (r : Response) : Json :=
  .obj [("id", r.id),
    match r.outcome with
    | .ok result => ("result", result)
    | .error message => ("error", .obj [("message", .str message)])]

/-- The answer to a line that is no request. A star stands for what is wrong with it, which has no
fixed wording. -/
def invalid : Response := ⟨.null, .error "invalid request: *"⟩

end Response

/-- Why serving stops before the end of its input. -/
inductive ServeError where
  | notUtf8
  deriving DecidableEq, Repr

def ServeError.message : ServeError → String
  | notUtf8 => "io error: " ++ FileFault.notUtf8.message

/-- What was written, how it ended, and the state behind it. -/
structure Served (τ : Type) where
  responses : List Response
  outcome : Except ServeError Unit
  state : τ

variable {τ : Type}

def handle (service : FormService τ) (request : Request) (s : τ) : Response × τ :=
  match Call.decode request.method request.params with
  | .error e => (⟨request.id, .error e.message⟩, s)
  | .ok call =>
    let (r, s) := call.run service s
    (⟨request.id, r.mapError fun e => (CallError.failed e).message⟩, s)

/-- The answer to a line with something on it. -/
def answerLine (service : FormService τ) (line : List Char) (s : τ) : Response × τ :=
  match Request.parse? line with
  | none => (.invalid, s)
  | some request => handle service request s

def isBlankLine (line : List Char) : Bool := line.all Text.isBlank

def serveLines (service : FormService τ) : List (List UInt8) → τ → Served τ
  | [], s => ⟨[], .ok (), s⟩
  | line :: lines, s =>
    match Utf8.decode? line with
    | none => ⟨[], .error .notUtf8, s⟩
    | some cs =>
      if isBlankLine cs then serveLines service lines s
      else
        let (response, s) := answerLine service cs s
        let rest := serveLines service lines s
        { rest with responses := response :: rest.responses }

def serve (service : FormService τ) (input : List UInt8) (s : τ) : Served τ :=
  serveLines service (Text.lines input) s

/-- The lines written, each without its end. -/
def Served.lines (r : Served τ) : List String := r.responses.map fun x => x.toJson.compact

end ManifestForm.Rpc
