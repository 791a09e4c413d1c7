import ManifestForm.CommandLine.Run
import ManifestForm.Host.Program
import ManifestForm.Transport.Http

/-! # The command line program

Reads the environment, the files that a command line needs and standard input, and prints what a
run leaves. No network and no other programs are within reach here: every cluster counts as one
that refuses connections, and no program can be started.
-/

namespace ManifestForm.Main

/-- Why a file cannot be read. -/
def faultOf : IO.Error → FileFault
  | .inappropriateType _ 21 _ => .directory
  | .inappropriateType .. => .notDirectory
  | _ => .notFound

/-- What is at a path. -/
def look (path : String) : IO (String × Except FileFault (List UInt8)) := do
  try return (path, .ok (← IO.FS.readBinFile path).toList)
  catch e => return (path, .error (faultOf e))

/-- The files at some paths; no others are known of. -/
def filesAt (paths : List String) : IO Files := do
  let known ← paths.mapM look
  return fun path => (known.lookup path).getD (.error .notFound)

/-- The files of a kubeconfig, as it would have them read. -/
def mentioned (k : Kubeconfig) : List String :=
  let ofCluster := k.currentCluster?.bind (·.certificateAuthority)
  let ofUser := (k.currentUser?.map fun u =>
    [u.tokenFile, u.clientCertificate, u.clientKey].filterMap id).getD []
  (ofCluster.toList ++ ofUser).map k.resolve

/-- The file that a task works on. -/
def file? : CommandLine.Task → Option String
  | .pathAt file _ | .spec file _ _ | .create file => some file
  | _ => none

/-- The files that a task can ask for. -/
def gather (kubeconfig : Option String) (task : CommandLine.Task) : IO Files := do
  let near := kubeconfig.toList ++ kubeconfig.toList.map Watch.directory ++ (file? task).toList
  let first ← filesAt near
  let far :=
    match kubeconfig.map (Kubeconfig.load first) with
    | some (.ok k) => mentioned k
    | _ => []
  filesAt (near ++ far)

def noNetwork : Http.Network Unit := fun _ state => (.refused, state)

def noPrograms : Program.Launcher Unit := fun _ state => (none, state)

/-- Prints what a run leaves, and gives its code. -/
def report (done : CommandLine.Exit) : IO UInt32 := do
  let stdout ← IO.getStdout
  stdout.putStr done.stdout
  stdout.flush
  for cause in done.causes do IO.eprintln cause
  return done.code.toUInt32

/-- The octets up to the last end of a line, and those behind it. -/
def completeLines (octets : List UInt8) : List UInt8 × List UInt8 :=
  let unfinished := (octets.reverse.takeWhile (· ≠ Text.lineFeed)).reverse
  (octets.take (octets.length - unfinished.length), unfinished)

/-- Answers the lines of standard input as they come. -/
partial def answerAll (run : List UInt8 → Form Unit Unit → CommandLine.Exit × Form Unit Unit)
    (pending : List UInt8) (f : Form Unit Unit) : IO UInt32 := do
  let chunk ← (← IO.getStdin).read 65536
  let (ready, pending) :=
    if chunk.isEmpty then (pending, []) else completeLines (pending ++ chunk.toList)
  let (done, f) := run ready f
  let code ← report done
  if chunk.isEmpty || code ≠ 0 then return code
  answerAll run pending f

def start (options : CommandLine.Options) (task : CommandLine.Task) : IO UInt32 := do
  let kubeconfig := options.kubeconfigPath? (← IO.getEnv "KUBECONFIG") (← IO.getEnv "HOME")
  let files ← gather kubeconfig task
  let here := toString (← IO.currentDir)
  let e : Setting Unit Unit :=
    ⟨Http.transport files noNetwork, Program.host kubeconfig noPrograms, files⟩
  let run (input : List UInt8) (f : Form Unit Unit) : CommandLine.Exit × Form Unit Unit :=
    CommandLine.run e here input task f
  let (done, form) := run [] (Form.start e () ())
  let code ← report done
  if task = .serve && code = 0 then answerAll run [] form else return code

end ManifestForm.Main

open ManifestForm in
def main (args : List String) : IO UInt32 := do
  match CommandLine.read (← IO.getEnv CommandLine.levelVariable) args with
  | .error stop =>
    if let .usage e := stop then IO.eprintln ("error: " ++ e.message)
    Main.report (.ofStop stop)
  | .ok (options, task) => Main.start options task
