import ManifestForm.Command.Catalog
import ManifestForm.Form.Reader
import ManifestForm.Spec.Project
import ManifestForm.Spec.Simplify

/-! # The service behind a form

The operations that a form calls, each on the state of whatever provides them, and the provider that
is made of a manifest reader, a transport and a host.
-/

namespace ManifestForm

/-- Runs on a state and may fail. The state goes on in either case. -/
abbrev Action (τ α : Type) := τ → Except FormError α × τ

structure FormService (τ : Type) where
  commands : Option String → Action τ (List String)
  details : List String → Action τ Command
  /-- Runs a program, given with its arguments, and returns what it prints. -/
  execute : List String → Action τ String
  openDialog : DialogOptions → Action τ (Option (List String))
  create : String → Action τ Unit
  spec : String → List String → Action τ Spec
  pathAt : String → Nat → Action τ (List String)
  editor : τ → EditorState

/-- What a form works with: how it reaches the cluster, what its host does, and the files. -/
structure Setting (σ η : Type) where
  transport : Transport σ
  host : Host η
  files : Files

/-- The reader beside the states of the transport and the host. -/
structure Form (σ η : Type) where
  reader : ManifestReader
  transport : σ
  host : η

namespace Form

variable {σ η : Type} {α : Type}

/-- A form whose reader has looked at the kubeconfig of the host. -/
def start (e : Setting σ η) (transport : σ) (host : η) : Form σ η :=
  ⟨ManifestReader.empty.start e.files e.host.kubeconfigPath, transport, host⟩

/-- An operation of the host. -/
def onHost (run : η → Except HostError α × η) : Action (Form σ η) α := fun f =>
  let (r, host) := run f.host
  (r.mapError .host, { f with host })

/-- Levels below the root of a spec that a form shows. -/
def maxDepth : Nat := 2

def execute (e : Setting σ η) : List String → Action (Form σ η) String
  | [] => fun f => (.error .emptyCommand, f)
  | program :: args => onHost (e.host.exec program args)

/-- The manifests of a text, if there is a resource among them. -/
def resources (content : String) : Except FormError (List Json.Object) :=
  match Manifest.manifests content with
  | .error fault => .error (.yaml fault)
  | .ok manifests =>
    if manifests.any (·.contains "kind") then .ok manifests
    else .error (.manifest .nothingToCreate)

/-- The current context of the kubeconfig of the host. -/
def currentContext (e : Setting σ η) : Except FormError String :=
  match e.host.kubeconfigPath with
  | none => .error (.schema .noActiveContext)
  | some path =>
    match Kubeconfig.load e.files path with
    | .error error => .error (.kubeconfig error)
    | .ok k =>
      match k.currentContext.filter fun name => !name.isEmpty with
      | none => .error (.schema .noActiveContext)
      | some context => .ok context

/-- Creates all manifests of a text in the current context, in one call of the host. -/
def create (e : Setting σ η) (content : String) : Action (Form σ η) Unit := fun f =>
  match resources content with
  | .error error => (.error error, f)
  | .ok manifests =>
    match currentContext e with
    | .error error => (.error error, f)
    | .ok context => onHost (e.host.create context manifests) f

/-- The schema of the first manifest of a text. -/
def manifestSchema (e : Setting σ η) (content : String) : Action (Form σ η) ManifestSchema :=
  fun f =>
    let (r, reader, transport) := ManifestReader.manifestSchema e.transport content
      (f.reader, f.transport)
    (r, { f with reader, transport })

/-- The spec of a schema under the name of its kind, cut at a path. -/
def specOf (path : List String) (depth : Nat) (m : ManifestSchema) : Except FormError Spec :=
  match m.schema.simplify m.kind with
  | .error error => .error (.spec error)
  | .ok whole => (whole.project path depth).mapError .spec

/-- The spec of the first manifest of a text, cut at a path. -/
def spec (e : Setting σ η) (depth : Nat) (content : String) (path : List String) :
    Action (Form σ η) Spec := fun f =>
  match manifestSchema e content f with
  | (.error error, f) => (.error error, f)
  | (.ok m, f) => (specOf path depth m, f)

def pathAt (content : String) (position : Nat) : Action (Form σ η) (List String) := fun f =>
  let (r, reader) := f.reader.pathAt content position
  (r, { f with reader })

def service (e : Setting σ η) : FormService (Form σ η) where
  commands parent f := ((CommandTree.catalog.names parent).mapError .command, f)
  details path f := ((CommandTree.catalog.details path).mapError .command, f)
  execute := execute e
  openDialog options := onHost (e.host.openDialog options)
  create := create e
  spec := spec e maxDepth
  pathAt := pathAt
  editor f := f.reader.editor

end Form

end ManifestForm
