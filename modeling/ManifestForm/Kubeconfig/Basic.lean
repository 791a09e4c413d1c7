import ManifestForm.File.Tree

/-! # Kubeconfigs

As much of a kubeconfig as it takes to reach its current cluster. Names are looked up in order, and
the first entry of a name is the one that counts.
-/

namespace ManifestForm

structure Cluster where
  server : String
  certificateAuthority : Option String
  certificateAuthorityData : Option String
  insecureSkipTlsVerify : Bool
  deriving DecidableEq, Repr

structure NamedCluster where
  name : String
  cluster : Cluster
  deriving DecidableEq, Repr

structure Context where
  cluster : String
  user : Option String
  namespaceName : Option String
  deriving DecidableEq, Repr

structure NamedContext where
  name : String
  context : Context
  deriving DecidableEq, Repr

structure User where
  token : Option String
  tokenFile : Option String
  clientCertificate : Option String
  clientCertificateData : Option String
  clientKey : Option String
  clientKeyData : Option String
  username : Option String
  password : Option String
  deriving DecidableEq, Repr

def User.anonymous : User := ⟨none, none, none, none, none, none, none, none⟩

structure NamedUser where
  name : String
  user : User
  deriving DecidableEq, Repr

structure Kubeconfig where
  currentContext : Option String
  clusters : Option (List NamedCluster)
  contexts : Option (List NamedContext)
  users : Option (List NamedUser)
  /-- The directory from which relative files are seen. -/
  directory : Option String
  deriving DecidableEq, Repr

namespace Kubeconfig

def empty : Kubeconfig := ⟨none, none, none, none, none⟩

def currentContext? (k : Kubeconfig) : Option NamedContext := do
  let name ← k.currentContext
  (← k.contexts).find? (·.name = name)

/-- The cluster of the current context, if it names a known one. -/
def currentCluster? (k : Kubeconfig) : Option Cluster := do
  let context ← k.currentContext?
  let named ← (← k.clusters).find? (·.name = context.context.cluster)
  return named.cluster

/-- The user of the current context, if it names a known one. -/
def currentUser? (k : Kubeconfig) : Option User := do
  let name ← (← k.currentContext?).context.user
  let named ← (← k.users).find? (·.name = name)
  return named.user

/-- A file that the kubeconfig mentions. -/
def resolve (path : String) (k : Kubeconfig) : String :=
  match k.directory with
  | some directory => FilePath.join directory path
  | none => path

end Kubeconfig

end ManifestForm
