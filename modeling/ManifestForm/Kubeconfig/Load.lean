import ManifestForm.File.Tree
import ManifestForm.Kubeconfig.Basic
import ManifestForm.Yaml.Node
import ManifestForm.Yaml.Node.Grammar

/-! # Loading kubeconfigs

A kubeconfig is the one document of a YAML text; without any document it is empty. Unknown keys are
ignored, and what does not fit is a fault of the whole text.
-/

namespace ManifestForm

inductive KubeconfigError where
  | unreadable (path : String) (fault : FileFault)
  | malformed
  deriving DecidableEq, Repr

def KubeconfigError.message : KubeconfigError → String
  | unreadable path _ => "failed to read kubeconfig " ++ path
  | malformed => "failed to parse kubeconfig"

open Yaml (Reader)

variable {Pos : Type}

def Cluster.reader : Reader Pos Cluster := fun tree n => do
  let fs ← Reader.fields
    ["server", "certificate-authority", "certificate-authority-data",
      "insecure-skip-tls-verify"] tree n
  return {
    server := ← fs.required tree "server" Reader.text
    certificateAuthority := ← fs.optional tree "certificate-authority" Reader.text
    certificateAuthorityData := ← fs.optional tree "certificate-authority-data" Reader.text
    insecureSkipTlsVerify := ← fs.withDefault tree "insecure-skip-tls-verify" false Reader.flag }

def NamedCluster.reader : Reader Pos NamedCluster := fun tree n => do
  let fs ← Reader.fields ["name", "cluster"] tree n
  return {
    name := ← fs.required tree "name" Reader.text
    cluster := ← fs.required tree "cluster" Cluster.reader }

def Context.reader : Reader Pos Context := fun tree n => do
  let fs ← Reader.fields ["cluster", "user", "namespace"] tree n
  return {
    cluster := ← fs.required tree "cluster" Reader.text
    user := ← fs.optional tree "user" Reader.text
    namespaceName := ← fs.optional tree "namespace" Reader.text }

def NamedContext.reader : Reader Pos NamedContext := fun tree n => do
  let fs ← Reader.fields ["name", "context"] tree n
  return {
    name := ← fs.required tree "name" Reader.text
    context := ← fs.required tree "context" Context.reader }

def User.reader : Reader Pos User := fun tree n => do
  let fs ← Reader.fields
    ["token", "token-file", "client-certificate", "client-certificate-data", "client-key",
      "client-key-data", "username", "password"] tree n
  let text (name : String) : Option (Option String) := fs.optional tree name Reader.text
  return {
    token := ← text "token"
    tokenFile := ← text "token-file"
    clientCertificate := ← text "client-certificate"
    clientCertificateData := ← text "client-certificate-data"
    clientKey := ← text "client-key"
    clientKeyData := ← text "client-key-data"
    username := ← text "username"
    password := ← text "password" }

def NamedUser.reader : Reader Pos NamedUser := fun tree n => do
  let fs ← Reader.fields ["name", "user"] tree n
  return {
    name := ← fs.required tree "name" Reader.text
    user := ← fs.withDefault tree "user" User.anonymous User.reader }

namespace Kubeconfig

def reader : Reader Pos Kubeconfig := fun tree n => do
  let fs ← Reader.fields ["current-context", "clusters", "contexts", "users"] tree n
  return {
    currentContext := ← fs.optional tree "current-context" Reader.text
    clusters := ← fs.optional tree "clusters" (Reader.items NamedCluster.reader)
    contexts := ← fs.optional tree "contexts" (Reader.items NamedContext.reader)
    users := ← fs.optional tree "users" (Reader.items NamedUser.reader)
    directory := none }

/-- Whether a character may stand in a kubeconfig: no controls but the tab and line breaks, no
byte order mark and no noncharacter at the end of the basic plane. -/
def isPrintable (c : Char) : Bool :=
  let n := c.toNat
  n = 9 || n = 10 || n = 13 || (0x20 ≤ n && n ≤ 0x7E) || n = 0x85 ||
    (0xA0 ≤ n && n ≤ 0xFFFD && n ≠ 0xFEFF) || 0x10000 ≤ n

/-- The text without a byte order mark at its start. -/
def withoutMark (content : String) : String :=
  match content.toList with
  | '\uFEFF' :: cs => String.ofList cs
  | _ => content

/-- Whether a plain scalar starts with a character of its own. One that a tab in the place of
indentation has begun starts with a blank, or is empty without having an anchor or a tag. -/
def startsCleanly : Yaml.Event → Bool
  | .scalar text .plain tag anchor =>
    match text.toList with
    | [] => tag.isSome || anchor.isSome
    | c :: _ => c ≠ ' ' && c ≠ '\t'
  | _ => true

def ofText? (content : String) : Option Kubeconfig :=
  let text := withoutMark content
  if text.toList.all isPrintable then
    match (Yaml.Documents.ofText text).all with
    | .ok [] => some empty
    | .ok [d] =>
      if d.root.events.all fun e => startsCleanly e.1 then reader d.root.anchored d.root else none
    | _ => none
  else none

def ofText (content : String) : Except KubeconfigError Kubeconfig :=
  match ofText? content with
  | some k => .ok k
  | none => .error .malformed

/-- The kubeconfig in a file, whose directory is the one from which other files are seen. -/
def load (files : Files) (path : String) : Except KubeconfigError Kubeconfig :=
  match files.readText path with
  | .error fault => .error (.unreadable path fault)
  | .ok content => (ofText content).map fun k => { k with directory := FilePath.parent? path }

/-- The first path that a search list names, or the usual place in the home directory. -/
def defaultPath? (searchList home : Option String) : Option String :=
  let listed? := searchList.bind fun s =>
    (Text.splitOn (· = ':') s.toList).find? (!·.isEmpty)
  match listed? with
  | some path => some (String.ofList path)
  | none => home.map fun h => FilePath.join (FilePath.join h ".kube") "config"

end Kubeconfig

end ManifestForm
