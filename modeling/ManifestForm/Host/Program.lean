import ManifestForm.Json.Decode
import ManifestForm.Json.Printer
import ManifestForm.Text.Basic

/-! # Hosts

What the surrounding application does for a form, on a state of its own. With the host of the
command line resources are created by `kubectl`, which gets all of them as one list, and programs
run as child processes. It has no file dialogs.
-/

namespace ManifestForm

structure DialogFilter where
  name : String
  extensions : List String
  deriving DecidableEq, Repr

structure DialogOptions where
  title : Option String
  openLabel : Option String
  defaultUri : Option String
  /-- Any of `openFile`, `openDirectory`, `multiSelections`. -/
  selectors : List String
  filters : List DialogFilter
  deriving DecidableEq, Repr

namespace DialogFilter

def fields : Record DialogFilter :=
  DialogFilter.mk
    <$> Record.required "name" Decoder.string
    <*> Record.required "extensions" (Decoder.list Decoder.string)

def decode : Decoder DialogFilter := fields.decoder "DialogFilter"

def toJson (f : DialogFilter) : Json :=
  .obj [("name", .str f.name), ("extensions", Json.strings f.extensions)]

end DialogFilter

namespace DialogOptions

def empty : DialogOptions := ⟨none, none, none, [], []⟩

def fields : Record DialogOptions :=
  DialogOptions.mk
    <$> Record.optional "title" Decoder.string
    <*> Record.optional "openLabel" Decoder.string
    <*> Record.optional "defaultUri" Decoder.string
    <*> Record.withDefault "selectors" [] (Decoder.list Decoder.string)
    <*> Record.withDefault "filters" [] (Decoder.list DialogFilter.decode)

def decode : Decoder DialogOptions := fields.decoder "DialogOptions"

def toJson (o : DialogOptions) : Json :=
  .obj [("title", Json.ofOption .str o.title), ("openLabel", Json.ofOption .str o.openLabel),
    ("defaultUri", Json.ofOption .str o.defaultUri), ("selectors", Json.strings o.selectors),
    ("filters", .arr (o.filters.map DialogFilter.toJson))]

end DialogOptions

inductive HostError where
  /-- The program ran and failed. -/
  | commandFailed (stderr : String)
  | notStarted (program : String)
  | creation (text : String)
  | unsupported (capability : String)
  deriving DecidableEq, Repr

def HostError.message : HostError → String
  | commandFailed stderr => stderr
  | notStarted program => "failed to run " ++ program
  | creation text => "failed to create resources: " ++ text
  | unsupported capability => capability ++ " is not supported by this host"

structure Host (η : Type) where
  /-- Where the kubeconfig is kept, whether there is one or not. -/
  kubeconfigPath : Option String
  /-- Creates manifests in the cluster of a context. -/
  create : String → List Json.Object → η → Except HostError Unit × η
  /-- Runs a program and returns what it prints. -/
  exec : String → List String → η → Except HostError String × η
  /-- Shows a file dialog; nothing is chosen when it is cancelled. -/
  openDialog : DialogOptions → η → Except HostError (Option (List String)) × η

namespace Program

structure Invocation where
  program : String
  args : List String
  stdin : String
  /-- The kubeconfig that the program is told of. -/
  kubeconfig : Option String
  deriving DecidableEq, Repr

/-- What a program leaves behind. -/
structure Completed where
  succeeded : Bool
  stdout : List UInt8
  stderr : List UInt8

/-- Runs a program, if there is one to run. -/
abbrev Launcher (η : Type) := Invocation → η → Option Completed × η

/-- Manifests as one document. -/
def resourceList (manifests : List Json.Object) : Json :=
  .obj [("apiVersion", .str "v1"), ("kind", .str "List"), ("items", .arr (manifests.map .obj))]

def kubectl : String := "kubectl"

/-- What `kubectl` is asked to do with the list on its input. -/
def createArgs (context : String) : List String := ["create", "--context", context, "-f", "-"]

/-- What a program printed, or what it complained of. -/
def run (launch : Launcher η) (i : Invocation) (state : η) : Except HostError String × η :=
  match launch i state with
  | (none, state) => (.error (.notStarted i.program), state)
  | (some done, state) =>
    let shown (octets : List UInt8) : List Char := Utf8.decodeLenient octets
    if done.succeeded then (.ok (String.ofList (shown done.stdout)), state)
    else (.error (.commandFailed (String.ofList (Text.trimEnd (shown done.stderr)))), state)

def host (kubeconfig : Option String) (launch : Launcher η) : Host η where
  kubeconfigPath := kubeconfig
  create context manifests state :=
    let input := (resourceList manifests).compact
    let (r, state) := run launch ⟨kubectl, createArgs context, input, kubeconfig⟩ state
    (r.map fun _ => (), state)
  exec program args := run launch ⟨program, args, "", kubeconfig⟩
  openDialog _ state := (.ok none, state)

end Program

end ManifestForm
