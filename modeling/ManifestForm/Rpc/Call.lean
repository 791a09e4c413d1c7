import ManifestForm.Command.Codec
import ManifestForm.Form.Service

/-! # Calls of a form service

The methods by which a client calls the operations of a form, with their parameters. Parameters
that are null count as an empty object.
-/

namespace ManifestForm.Rpc

inductive Call where
  | commands (parent : Option String)
  | details (path : List String)
  | execute (args : List String)
  | openDialog (options : DialogOptions)
  | create (content : String)
  | spec (content : String) (path : List String)
  | pathAt (content : String) (position : Nat)
  | editor
  deriving DecidableEq, Repr

/-- Why a call fails. -/
inductive CallError where
  | unknownMethod (name : String)
  | invalidParams (method : String) (error : DecodeError)
  | failed (error : FormError)

def CallError.message : CallError → String
  | unknownMethod name => "unknown method " ++ name
  | invalidParams method error => "invalid params for " ++ method ++ ": " ++ error.message
  | failed error => error.message

namespace Call

def commandsParams : Decoder Call :=
  (Call.commands <$> Record.optional "parent" Decoder.string).decoder "GetCommandsParams"

def detailsParams : Decoder Call :=
  (Call.details <$> Record.required "path" (Decoder.list Decoder.string)).decoder
    "GetCommandDetailsParams"

def executeParams : Decoder Call :=
  (Call.execute <$> Record.required "args" (Decoder.list Decoder.string)).decoder
    "ExecuteCommandParams"

def openDialogParams : Decoder Call :=
  (Call.openDialog <$> Record.withDefault "options" .empty DialogOptions.decode).decoder
    "OpenDialogParams"

def createParams : Decoder Call :=
  (Call.create <$> Record.required "content" Decoder.string).decoder "CreateParams"

def specParams : Decoder Call :=
  (Call.spec
    <$> Record.required "content" Decoder.string
    <*> Record.withDefault "path" [] (Decoder.list Decoder.string)).decoder "SpecParams"

def pathAtParams : Decoder Call :=
  (Call.pathAt
    <$> Record.required "content" Decoder.string
    <*> Record.required "position" Decoder.size).decoder "PathAtPositionParams"

/-- The reader of the parameters of a method. Asking for the state takes none and reads none. -/
def params? (method : String) : Option (Decoder Call) :=
  match method with
  | "getCommands" => some commandsParams
  | "getCommandDetails" => some detailsParams
  | "executeCommand" => some executeParams
  | "openDialog" => some openDialogParams
  | "create" => some createParams
  | "getSpecFromYamlManifest" => some specParams
  | "getPathAtPosition" => some pathAtParams
  | "getState" => some fun _ => .ok .editor
  | _ => none

def decode (method : String) (params : Json) : Except CallError Call :=
  match params? method with
  | none => .error (.unknownMethod method)
  | some decoder =>
    (decoder (if params.isNull then .obj [] else params)).mapError (.invalidParams method)

variable {τ : Type}

/-- Runs an operation and encodes what it gives. -/
def answer (action : Action τ α) (encode : α → Json) (s : τ) : Except FormError Json × τ :=
  let (r, s) := action s
  (r.map encode, s)

def editorJson (e : EditorState) : Json :=
  .obj [("content", .str e.content), ("position", Json.nat e.position)]

def run (service : FormService τ) : Call → τ → Except FormError Json × τ
  | commands parent => answer (service.commands parent) Json.strings
  | details path => answer (service.details path) Command.toJson
  | execute args => answer (service.execute args) .str
  | openDialog options => answer (service.openDialog options) (Json.ofOption Json.strings)
  | create content => answer (service.create content) fun _ => .null
  | spec content path => answer (service.spec content path) Spec.toJson
  | pathAt content position => answer (service.pathAt content position) Json.strings
  | editor => fun s => (.ok (editorJson (service.editor s)), s)

end Call

end ManifestForm.Rpc
