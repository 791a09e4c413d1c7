import ManifestForm.Json.Parser
import ManifestForm.Text.Basic
import ManifestForm.Text.Pem
import ManifestForm.Transport.Basic

/-! # Fetching over HTTP

One GET request per URL, with the credentials of the current context. The network is a function on
a state of its own, from a request to what becomes of it.

Certificates and keys are given in place, as Base64, or else in files; what they encode is only
looked at as far as PEM goes. A user is authorised by a token, by the token in a file, or by a name
and a password, in this order.
-/

namespace ManifestForm.Credentials

/-- Certificates or a key: the octets given in place, or else those of a file. -/
def material (files : Files) (k : Kubeconfig) (data file : Option String) :
    Except TransportError (Option (List UInt8)) :=
  match data, file with
  | some text, _ =>
    match Base64.decode (Utf8.encode (Text.trim text.toList)) with
    | .error fault => .error (.credentials (.base64 fault))
    | .ok octets => .ok (some octets)
  | none, some file =>
    let path := k.resolve file
    match files path with
    | .error fault => .error (.unreadable path fault)
    | .ok octets => .ok (some octets)
  | none, none => .ok none

/-- There must be a certificate, and no malformed section. -/
def checkCertificates (octets : List UInt8) : Except CredentialFault Unit :=
  let sections := Pem.sections octets
  if sections.any fun s => s.toOption.isNone then .error .malformedSection
  else if sections.any fun s => s.toOption = some .certificate then .ok ()
  else .error .noCertificate

/-- A private key must come before any malformed section. -/
def findKey : List (Except Unit Pem.Kind) → Except CredentialFault Unit
  | [] => .error .noPrivateKey
  | .error () :: _ => .error .malformedSection
  | .ok .privateKey :: _ => .ok ()
  | .ok _ :: rest => findKey rest

def checkKey (octets : List UInt8) : Except CredentialFault Unit := findKey (Pem.sections octets)

def checkAuthority (files : Files) (k : Kubeconfig) (c : Cluster) : Except TransportError Unit := do
  match ← material files k c.certificateAuthorityData c.certificateAuthority with
  | none => return ()
  | some octets => (checkCertificates octets).mapError .credentials

/-- A certificate counts only together with its key. -/
def checkIdentity (files : Files) (k : Kubeconfig) (u : User) : Except TransportError Unit := do
  let certificate ← material files k u.clientCertificateData u.clientCertificate
  let key ← material files k u.clientKeyData u.clientKey
  match certificate, key with
  | some certificate, some key =>
    (checkCertificates certificate).mapError TransportError.credentials
    (checkKey key).mapError .credentials
  | _, _ => return ()

def bearer (token : String) : String := "Bearer " ++ token

/-- The value of the authorization header, if the user has one. -/
def authorization (files : Files) (k : Kubeconfig) (u : User) :
    Except TransportError (Option String) :=
  match u.token, u.tokenFile, u.username, u.password with
  | some token, _, _, _ => .ok (some (bearer token))
  | none, some file, _, _ =>
    let path := k.resolve file
    match files.readText path with
    | .error fault => .error (.unreadable path fault)
    | .ok token => .ok (some (bearer (String.ofList (Text.trim token.toList))))
  | none, none, some username, some password =>
    let pair := Utf8.encode (username ++ ":" ++ password).toList
    .ok (some ("Basic " ++ String.ofList (Base64.encode pair)))
  | _, _, _, _ => .ok none

/-- The authorization header of requests to the current cluster, once all certificates and keys
have been looked at. -/
def prepare (files : Files) (k : Kubeconfig) : Except TransportError (Option String) := do
  match k.currentCluster? with
  | none => .error .noCluster
  | some cluster =>
    checkAuthority files k cluster
    match k.currentUser? with
    | none => return none
    | some user =>
      checkIdentity files k user
      authorization files k user

end ManifestForm.Credentials

namespace ManifestForm.Http

structure Request where
  /-- Where to connect to. -/
  authority : String
  target : String
  accept : String
  authorization : Option String
  deriving DecidableEq, Repr

/-- The first line of a request. -/
def Request.line (r : Request) : String := s!"GET {r.target} HTTP/1.1"

/-- What becomes of a request. -/
inductive Exchange where
  /-- Nobody listens at the address. -/
  | refused
  /-- The connection ends before the answer does. -/
  | broken
  | answered (status : Nat) (body : String)
  deriving DecidableEq, Repr

abbrev Network (ν : Type) := Request → ν → Exchange × ν

/-- Whether a text can be the value of a header: it has no controls but the tab. -/
def isHeaderText (s : String) : Bool :=
  s.toList.all fun c => c = '\t' || (0x20 ≤ c.toNat && c.toNat ≠ 0x7F)

/-- The request for a URL, if the URL can be asked for and the header can be sent. -/
def request? (url : String) (authorization : Option String) : Option Request :=
  match Url.parse? url with
  | none => none
  | some u =>
    if authorization.all isHeaderText then
      some ⟨u.authority, u.target, "application/json", authorization⟩
    else none

/-- Answers with these statuses have no body. -/
def isBodiless (status : Nat) : Bool := status = 204 || status = 304

/-- The value in the body of an answer that is no error. -/
def value (url : String) : Exchange → Except TransportError Json
  | .refused => .error (.connectionRefused "Connection refused (os error 111)")
  | .broken => .error .exchange
  | .answered status body =>
    if 400 ≤ status then .error (.status url status)
    else
      match Json.parse? (if isBodiless status then "" else body) with
      | none => .error (.invalidBody url)
      | some v => .ok v

def fetch (files : Files) (network : Network ν) (k : Kubeconfig) (url : String) (state : ν) :
    Except TransportError Json × ν :=
  match Credentials.prepare files k with
  | .error e => (.error e, state)
  | .ok authorization =>
    match request? url authorization with
    | none => (.error .exchange, state)
    | some request =>
      let (exchange, state) := network request state
      (value url exchange, state)

/-- The transport over a network. It never clears a cache. -/
def transport (files : Files) (network : Network ν) : Transport ν := fun k url state =>
  let (outcome, state) := fetch files network k url state
  (⟨outcome, 0⟩, state)

end ManifestForm.Http
