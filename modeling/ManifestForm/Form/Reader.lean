import ManifestForm.Command.Basic
import ManifestForm.Host.Program
import ManifestForm.Kubeconfig.Load
import ManifestForm.Manifest.Load
import ManifestForm.PathMap.Document
import ManifestForm.PathMap.Query
import ManifestForm.Schema.Cache
import ManifestForm.Spec.Project
import ManifestForm.Yaml.Token

/-! # Reading manifests against a cluster

A reader is bound to the current cluster of the kubeconfig that it saw last, or to none, and keeps
the schemas of that cluster. It lets go of them when it is bound to another server or to none.
-/

namespace ManifestForm

/-- What is wrong with the manifests of a form. -/
inductive ManifestFault where
  | noManifest
  | missing (field : String)
  | nothingToCreate
  deriving DecidableEq, Repr

def ManifestFault.message : ManifestFault → String
  | noManifest => "no manifest found"
  | missing field => field ++ " not defined in the manifest"
  | nothingToCreate => "No valid Kubernetes resources found in content"

inductive FormError where
  | yaml (fault : Yaml.Fault)
  | schema (error : SchemaError)
  | spec (error : SpecError)
  | kubeconfig (error : KubeconfigError)
  | host (error : HostError)
  | manifest (fault : ManifestFault)
  | command (error : CommandError)
  | emptyCommand
  deriving DecidableEq, Repr

def FormError.message : FormError → String
  | yaml fault => "invalid YAML: " ++ fault.message
  | schema error => error.message
  | spec error => error.message
  | kubeconfig error => error.message
  | host error => error.message
  | manifest fault => fault.message
  | command error => error.message
  | emptyCommand => "no command to execute"

inductive ChangeKind where
  | create
  | update
  | delete
  deriving DecidableEq, Repr

/-- A change of a kubeconfig file. -/
structure KubeconfigChange where
  kind : ChangeKind
  path : String
  deriving DecidableEq, Repr

/-- What the editor showed when it last asked for a path. -/
structure EditorState where
  content : String
  position : Nat
  deriving DecidableEq, Repr

/-- The schema of the first manifest of a text, and its kind. -/
structure ManifestSchema where
  kind : String
  schema : Schema

structure ManifestReader where
  cache : SchemaCache
  kubeconfig? : Option Kubeconfig
  /-- The server that the reader is bound to. -/
  server? : Option String
  editor : EditorState

namespace ManifestReader

def empty : ManifestReader := ⟨.empty, none, none, ⟨"", 0⟩⟩

/-- Binds to the current cluster of a kubeconfig; without one the binding stays as it is. -/
def bind (k : Kubeconfig) (r : ManifestReader) : ManifestReader :=
  match k.currentCluster? with
  | none => r
  | some cluster =>
    { r with
      kubeconfig? := some k
      server? := some cluster.server
      cache := if r.server? = some cluster.server then r.cache else r.cache.clear }

/-- Follows a change of the kubeconfig. A file that cannot be loaded changes nothing. -/
def follow (files : Files) (change : KubeconfigChange) (r : ManifestReader) : ManifestReader :=
  match change.kind with
  | .delete => { r with kubeconfig? := none, server? := none, cache := r.cache.clear }
  | .create | .update =>
    match Kubeconfig.load files change.path with
    | .ok k => r.bind k
    | .error _ => r

/-- Looks at the kubeconfig of a host, if its file exists. -/
def start (files : Files) (kubeconfigPath : Option String) (r : ManifestReader) :
    ManifestReader :=
  match kubeconfigPath with
  | some path => if files.exists? path then r.follow files ⟨.create, path⟩ else r
  | none => r

/-- A field of a manifest with a text in it. -/
def fieldText? (name : String) (manifest : Json) : Option String :=
  ((manifest.get? name).bind Json.string?).filter fun s => !s.isEmpty

/-- The API version and kind of the first manifest of a text. -/
def identify (content : String) : Except FormError (String × String) :=
  match Manifest.first? content with
  | .error fault => .error (.yaml fault)
  | .ok none => .error (.manifest .noManifest)
  | .ok (some manifest) =>
    match fieldText? "apiVersion" manifest, fieldText? "kind" manifest with
    | none, _ => .error (.manifest (.missing "apiVersion"))
    | some _, none => .error (.manifest (.missing "kind"))
    | some apiVersion, some kind => .ok (apiVersion, kind)

/-- The schema of the first manifest of a text in the cluster that the reader is bound to. -/
def manifestSchema (t : Transport σ) (content : String) (s : ManifestReader × σ) :
    Except FormError ManifestSchema × ManifestReader × σ :=
  match s.1.kubeconfig? with
  | none => (.error (.schema .noActiveContext), s)
  | some kubeconfig =>
    match identify content with
    | .error e => (.error e, s)
    | .ok (apiVersion, kind) =>
      let (found, session) :=
        SchemaCache.getSchema t kubeconfig apiVersion kind ⟨s.1.cache, s.2⟩
      let after := ({ s.1 with cache := session.cache }, session.transport)
      match found with
      | .error e => (.error (.schema e), after)
      | .ok schema => (.ok ⟨kind, schema⟩, after)

/-- The path of the node at a byte offset of a text, which is remembered unless it is empty. -/
def pathAt (content : String) (position : Nat) (r : ManifestReader) :
    Except FormError (List String) × ManifestReader :=
  if content.isEmpty then (.ok [], r)
  else
    let r := { r with editor := ⟨content, position⟩ }
    match PathMap.ofText content with
    | .error fault => (.error (.yaml fault), r)
    | .ok map => (.ok ((map.pathAtOffset position).getD []), r)

end ManifestReader

end ManifestForm
