import ManifestForm.CommandLine.Arguments
import ManifestForm.Form.Reader
import ManifestForm.Json.Printer
import ManifestForm.Rpc.Serve
import ManifestForm.Text.Quoted
import ManifestForm.Watch.Directory

/-! # Running a task

A task prints its results as indented JSON, except that names of commands come one on a line and
answers to requests are compact. What was printed before a failure stays printed. A failure is told
as a chain of messages: what failed comes first, and what it failed of behind it.
-/

namespace ManifestForm

namespace TransportError

def causes (e : TransportError) : List String :=
  match e with
  | unreadable _ fault => [e.message, fault.message]
  | _ => [e.message]

end TransportError

namespace HostError

/-- A program that does not start is one that was not found. -/
def causes (e : HostError) : List String :=
  match e with
  | notStarted _ => [e.message, FileFault.notFound.message]
  | _ => [e.message]

end HostError

namespace KubeconfigError

def causes (e : KubeconfigError) : List String :=
  match e with
  | unreadable _ fault => [e.message, fault.message]
  | malformed => [e.message]

end KubeconfigError

namespace FormError

def causes (e : FormError) : List String :=
  match e with
  | yaml fault => [e.message, fault.message]
  | schema (.transport error) => error.causes
  | kubeconfig error => error.causes
  | host error => error.causes
  | _ => [e.message]

end FormError

namespace CommandLine

inductive Failure where
  | unreadable (file : String) (fault : FileFault)
  | form (error : FormError)
  | creation (file : String) (error : FormError)
  /-- The directory cannot be watched, because of what is at its place. -/
  | unwatched (directory place : String) (fault : FileFault)
  | service (error : Rpc.ServeError)
  deriving DecidableEq, Repr

/-- What is wrong with a place that is to be watched. -/
def watchCauses (place : String) (fault : FileFault) : List String :=
  let about : String := " about [" ++ Text.quotedPath place ++ "]"
  match fault with
  | .notFound => ["No path was found." ++ about]
  | _ => [fault.message ++ about, fault.message]

/-- The chain of messages. -/
def Failure.causes : Failure → List String
  | unreadable file fault => ["read " ++ file, fault.message]
  | form error => error.causes
  | creation file error => ("create resources from " ++ file) :: error.causes
  | unwatched directory place fault =>
    (Watch.WatchError.failed directory).message :: watchCauses place fault
  | service error => [error.message, FileFault.notUtf8.message]

end CommandLine

namespace CommandLine

/-- How a command line ended: the code for whoever started it, what was printed, and why it failed,
from the outermost message on. -/
structure Exit where
  code : Nat
  stdout : String
  causes : List String
  deriving DecidableEq, Repr

def Exit.success (stdout : String) : Exit := ⟨0, stdout, []⟩

def Exit.failure (stdout : String) (failure : Failure) : Exit := ⟨1, stdout, failure.causes⟩

/-- Texts, each with the end of a line behind it. -/
def endLines (texts : List String) : String := String.join (texts.map (· ++ "\n"))

def versionText : String := "kreate 0.1.0"

def helpLines : List String :=
  ["Resolve Kubernetes manifest schemas and create resources from forms", "",
    "Usage: kreate [OPTIONS] <COMMAND>", "", "Commands:",
    "  serve", "  path-at <FILE> --offset <OFFSET>",
    "  spec <FILE> [--path <PATH>] [--max-depth <MAX_DEPTH>]",
    "  commands [PARENT]", "  command-details <PATH>...", "  create <FILE>", "", "Options:",
    "  --log-level <LOG_LEVEL>", "  --log-format <LOG_FORMAT>", "  --color <COLOR>",
    "  --kubeconfig <KUBECONFIG>", "  -h, --help", "  -V, --version"]

/-- How a command line ends that leads to no task. -/
def Exit.ofStop : Stop → Exit
  | .help => .success (endLines helpLines)
  | .version => .success (endLines [versionText])
  | .usage _ => ⟨2, "", []⟩

/-- The kubeconfig that the options name, or else the usual one. -/
def Options.kubeconfigPath? (o : Options) (searchList home : Option String) : Option String :=
  o.kubeconfig <|> Kubeconfig.defaultPath? searchList home

/-- Whether the directory of a kubeconfig can be watched. There must be something at its place,
which is given as it is seen from another directory. -/
def checkWatch (files : Files) (here kubeconfig : String) : Except Failure Unit :=
  let directory := Watch.directory kubeconfig
  let failed (fault : FileFault) : Except Failure Unit :=
    .error (.unwatched directory (FilePath.join here directory) fault)
  match files directory with
  | .error .notFound => failed .notFound
  | .error .notDirectory => failed .notDirectory
  | _ => .ok ()

variable {σ η : Type} {α : Type}

/-- Prints what an operation gives. -/
def printed (print : α → String) (r : Except Failure α) : Exit :=
  match r with
  | .ok a => .success (print a)
  | .error failure => .failure "" failure

def prettyLine (v : Json) : String := v.pretty ++ "\n"

/-- Runs an operation on the content of a file. -/
def onFile (files : Files) (file : String) (fault : FormError → Failure)
    (action : String → Action (Form σ η) α) (print : α → String) (f : Form σ η) :
    Exit × Form σ η :=
  match files.readText file with
  | .error e => (.failure "" (.unreadable file e), f)
  | .ok content =>
    let (r, f) := action content f
    (printed print (r.mapError fault), f)

/-- Answers all requests, once it is clear that the kubeconfig can be watched. -/
def serve (e : Setting σ η) (here : String) (input : List UInt8) (f : Form σ η) :
    Exit × Form σ η :=
  match e.host.kubeconfigPath.mapM (checkWatch e.files here) with
  | .error failure => (.failure "" failure, f)
  | .ok _ =>
    let served := Rpc.serve (Form.service e) input f
    match served.outcome with
    | .ok () => (.success (endLines served.lines), served.state)
    | .error error => (.failure (endLines served.lines) (.service error), served.state)

/-- Runs a task in a directory, with requests to answer if it asks for them. -/
def run (e : Setting σ η) (here : String) (input : List UInt8) (task : Task) (f : Form σ η) :
    Exit × Form σ η :=
  match task with
  | .serve => serve e here input f
  | .pathAt file offset =>
    onFile e.files file .form (fun content => (Form.service e).pathAt content offset)
      (fun path => prettyLine (Json.strings path)) f
  | .spec file path depth =>
    onFile e.files file .form (fun content => Form.spec e depth content path)
      (fun spec => prettyLine spec.toJson) f
  | .commands parent =>
    let (r, f) := (Form.service e).commands parent f
    (printed endLines (r.mapError .form), f)
  | .commandDetails path =>
    let (r, f) := (Form.service e).details path f
    (printed (fun command => prettyLine command.toJson) (r.mapError .form), f)
  | .create file =>
    onFile e.files file (.creation file) (Form.create e) (fun _ => "") f

end CommandLine

end ManifestForm
