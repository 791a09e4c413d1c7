import ManifestForm.File.Tree
import ManifestForm.Form.Reader

/-! # Watching a kubeconfig

Notifications about a directory are turned into changes of the kubeconfig in it. A notification
concerns the kubeconfig if one of its paths ends in the same name. The notifications are those that
changes of files cause in the directory; only files right in it are noticed.
-/

namespace ManifestForm.Watch

inductive NotificationKind where
  | create
  | modify
  | remove
  | other
  deriving DecidableEq, Repr

structure Notification where
  kind : NotificationKind
  paths : List String
  deriving DecidableEq, Repr

def changeKind? : NotificationKind → Option ChangeKind
  | .create => some .create
  | .modify => some .update
  | .remove => some .delete
  | .other => none

/-- The change of the kubeconfig that a notification tells of. -/
def classify (kubeconfig : String) (n : Notification) : Option KubeconfigChange := do
  let kind ← changeKind? n.kind
  let name ← FilePath.fileName? kubeconfig
  if n.paths.any fun path => FilePath.fileName? path = some name then
    some ⟨kind, kubeconfig⟩
  else none

/-- The directory to watch for a kubeconfig. -/
def directory (kubeconfig : String) : String :=
  match FilePath.parent? kubeconfig with
  | some parent => if parent.isEmpty then "." else parent
  | none => "."

inductive WatchError where
  | failed (directory : String)
  deriving DecidableEq, Repr

def WatchError.message : WatchError → String
  | failed directory => "failed to watch " ++ directory

inductive FileChange where
  /-- The file is created or emptied, and then written to. -/
  | written (path : String) (content : List UInt8)
  | renamed (source target : String)
  | removed (path : String)
  deriving DecidableEq, Repr

/-- A directory under observation, and the files around it. -/
structure Observed where
  /-- The directory from which relative paths are seen. -/
  here : String
  directory : List (List Char)
  tree : FileTree

namespace Observed

def place (o : Observed) (path : String) : List (List Char) := FileTree.place o.here path

def holds (o : Observed) (path : String) : Bool :=
  match o.tree.entry (o.place path) with
  | .file _ => true
  | _ => false

/-- Those of the paths that are right in the directory. -/
def inside (o : Observed) (paths : List String) : List String :=
  paths.filter fun path => (o.place path).dropLast = o.directory

def notify (o : Observed) (kind : NotificationKind) (path : String) : List Notification :=
  if (o.inside [path]).isEmpty then [] else [⟨kind, [path]⟩]

def without (o : Observed) (path : String) : FileTree :=
  o.tree.filter fun f => f.1 ≠ o.place path

/-- One change of a file, with the notifications that it causes. A file that does not exist can
neither be renamed nor removed. -/
def apply (o : Observed) : FileChange → List Notification × Observed
  | .written path content =>
    (o.notify (if o.holds path then .modify else .create) path ++
        (if content.isEmpty then [] else o.notify .modify path),
      { o with tree := (o.place path, content) :: o.without path })
  | .renamed source target =>
    match o.tree.lookup (o.place source) with
    | none => ([], o)
    | some octets =>
      let o' := { o with tree := o.without source }
      (o.notify .modify source ++ o.notify .modify target,
        { o with tree := (o.place target, octets) :: o'.without target })
  | .removed path =>
    if o.holds path then (o.notify .remove path, { o with tree := o.without path }) else ([], o)

def applyAll (o : Observed) : List FileChange → List Notification
  | [] => []
  | c :: cs =>
    let (ns, o) := o.apply c
    ns ++ applyAll o cs

end Observed

/-- A run of equal changes counts once. -/
def collapse : List KubeconfigChange → List KubeconfigChange
  | [] => []
  | c :: cs =>
    match collapse cs with
    | [] => [c]
    | d :: ds => if c = d then d :: ds else c :: d :: ds

/-- The changes of a kubeconfig while files around it change. -/
def observe (here kubeconfig : String) (tree : FileTree) (changes : List FileChange) :
    Except WatchError (List KubeconfigChange) :=
  let place := FileTree.place here (directory kubeconfig)
  match tree.entry place with
  | .missing => .error (.failed (directory kubeconfig))
  | _ =>
    .ok (collapse ((Observed.applyAll ⟨here, place, tree⟩ changes).filterMap (classify kubeconfig)))

end ManifestForm.Watch
