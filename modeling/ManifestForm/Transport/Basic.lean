import ManifestForm.File.Tree
import ManifestForm.Json.Basic
import ManifestForm.Kubeconfig.Basic
import ManifestForm.Text.Pem

/-! # Fetching JSON from a cluster

A transport answers a URL with a JSON value or a reason why there is none. It runs on a state of its
own, and while an answer is under way it may have the schema cache cleared any number of times.

An absolute URL of the plain HTTP scheme is split into the authority to connect to and the target to
ask it for. What stands behind a `#` is dropped, and an empty path is the root.
-/

namespace ManifestForm

/-- What is wrong with the credentials of a user or the certificates of a cluster. -/
inductive CredentialFault where
  | base64 (fault : Base64.Fault)
  | noCertificate
  | noPrivateKey
  /-- A PEM section that does not decode or does not end. -/
  | malformedSection
  | other (text : String)
  deriving DecidableEq, Repr

inductive TransportError where
  | connectionRefused (text : String)
  | noCluster
  | status (url : String) (code : Nat)
  | invalidBody (url : String)
  | credentials (fault : CredentialFault)
  | unreadable (path : String) (fault : FileFault)
  /-- No HTTP exchange took place, or it broke off. -/
  | exchange
  deriving DecidableEq, Repr

/-- A star stands for details that have no fixed wording. -/
def CredentialFault.message : CredentialFault → String
  | base64 fault => fault.message
  | noCertificate => "no certificate found in PEM data"
  | noPrivateKey => "no private key found in PEM data"
  | malformedSection => "*"
  | other text => text

/-- A star stands for details that have no fixed wording. -/
def TransportError.message : TransportError → String
  | connectionRefused text => "connection refused: " ++ text
  | noCluster => "kubeconfig has no current cluster"
  | status url code => s!"GET {url} returned status {code}"
  | invalidBody url => s!"GET {url} returned an invalid JSON body"
  | credentials fault => "invalid credentials: " ++ fault.message
  | unreadable path _ => "failed to read " ++ path
  | exchange => "*"

structure Reply where
  outcome : Except TransportError Json
  /-- How often the schema cache was cleared before the answer came. -/
  clears : Nat

/-- The answer to a URL under a kubeconfig, and the state behind it. -/
abbrev Transport (σ : Type) := Kubeconfig → String → σ → Reply × σ

structure Url where
  authority : String
  target : String
  deriving DecidableEq, Repr

namespace Url

/-- Where an authority or a path ends. -/
def isDelimiter (c : Char) : Bool := c = '/' || c = '?' || c = '#'

def isAuthorityChar (c : Char) : Bool :=
  c.isAlphanum || "-._~:@[]%!$&'()*+,;=".toList.contains c

/-- Characters of a path, and those beyond ASCII. -/
def isPathChar (c : Char) : Bool :=
  0x21 ≤ c.toNat && c ≠ '#' && c ≠ '<' && c ≠ '>' && c ≠ '?' && c ≠ '\x60'

/-- Characters of a query, and those beyond ASCII. -/
def isQueryChar (c : Char) : Bool :=
  0x21 ≤ c.toNat && c ≠ '"' && c ≠ '#' && c ≠ '<' && c ≠ '>'

def scheme : List Char := "http://".toList

/-- The characters after the scheme, whose letters may be of either case. -/
def afterScheme? (cs : List Char) : Option (List Char) :=
  if (cs.take scheme.length).map Char.toLower = scheme then some (cs.drop scheme.length) else none

/-- The target of a path and query, given without the fragment. -/
def target? (cs : List Char) : Option String :=
  let path := cs.takeWhile (· ≠ '?')
  let query := cs.dropWhile (· ≠ '?')
  if path.all isPathChar && query.all isQueryChar then
    some (String.ofList ((if path.isEmpty then ['/'] else path) ++ query))
  else none

def parse? (url : String) : Option Url :=
  match afterScheme? url.toList with
  | none => none
  | some cs =>
    let authority := cs.takeWhile fun c => !isDelimiter c
    let rest := (cs.dropWhile fun c => !isDelimiter c).takeWhile (· ≠ '#')
    if authority.isEmpty || !authority.all isAuthorityChar then none
    else (target? rest).map fun target => ⟨String.ofList authority, target⟩

end Url

end ManifestForm
