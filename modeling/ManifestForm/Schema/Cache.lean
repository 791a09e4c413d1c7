import ManifestForm.Schema.Codec
import ManifestForm.Schema.Dereference
import ManifestForm.Schema.GroupVersionKind
import ManifestForm.Transport.Basic

/-! # The schema cache

The index of a cluster and the schemas of its kinds, kept from one clear to the next. Each clear
starts an epoch, and what was fetched in an earlier epoch is handed out but not kept.
-/

namespace ManifestForm

inductive SchemaError where
  /-- There is no current cluster, or it refuses connections. -/
  | noActiveContext
  /-- The index or the description of a group version is missing or malformed. -/
  | noUsableApiDescription
  | resourceNotFound (apiVersion kind : String)
  | transport (error : TransportError)
  deriving DecidableEq, Repr

namespace SchemaError

def message : SchemaError → String
  | noActiveContext => "No current context"
  | noUsableApiDescription => "No openapi endpoint"
  | resourceNotFound apiVersion kind =>
    s!"no resource found for apiVersion {apiVersion} and kind {kind}"
  | transport error => error.message

/-- A cluster out of reach counts as none, and an answer that is no JSON document as no API
description. -/
def ofTransport : TransportError → SchemaError
  | .connectionRefused _ | .noCluster => noActiveContext
  | .status .. | .invalidBody _ => noUsableApiDescription
  | other => transport other

end SchemaError

structure SchemaCache where
  epoch : UInt64
  index : Option Index
  /-- The schemas by API version and kind, written with a slash between them. -/
  kinds : List (String × Schema)

namespace SchemaCache

def empty : SchemaCache := ⟨0, none, []⟩

def clear (c : SchemaCache) : SchemaCache := ⟨c.epoch + 1, none, []⟩

def clearTimes : Nat → SchemaCache → SchemaCache
  | 0, c => c
  | n + 1, c => clearTimes n c.clear

def key (apiVersion kind : String) : String := apiVersion ++ "/" ++ kind

/-- Keeps an index that was asked for in an epoch, unless that epoch is over. -/
def storeIndex (epoch : UInt64) (index : Index) (c : SchemaCache) : SchemaCache :=
  if c.epoch = epoch then { c with index := some index } else c

/-- Keeps a schema that was asked for in an epoch, unless that epoch is over. -/
def storeKind (epoch : UInt64) (key : String) (schema : Schema) (c : SchemaCache) : SchemaCache :=
  if c.epoch = epoch then { c with kinds := (key, schema) :: c.kinds } else c

/-- A cache beside the state of the transport that fills it. -/
structure Session (σ : Type) where
  cache : SchemaCache
  transport : σ

variable {σ : Type}

namespace Session

def mapCache (f : SchemaCache → SchemaCache) (s : Session σ) : Session σ :=
  { s with cache := f s.cache }

def clear (s : Session σ) : Session σ := s.mapCache SchemaCache.clear

/-- One fetch. Clears that happen meanwhile come before the answer is used. -/
def fetch (t : Transport σ) (k : Kubeconfig) (url : String) (s : Session σ) :
    Except TransportError Json × Session σ :=
  let (reply, state) := t k url s.transport
  (reply.outcome, ⟨s.cache.clearTimes reply.clears, state⟩)

end Session

/-- A server without slashes at its end. -/
def trimSlashes (server : String) : String :=
  String.ofList (server.toList.reverse.dropWhile (· = '/')).reverse

/-- The server of the current cluster, without slashes at its end. -/
def server? (k : Kubeconfig) : Option String :=
  k.currentCluster?.map fun cluster => trimSlashes cluster.server

/-- Where a server lists its API descriptions. -/
def indexPath : String := "/openapi/v3"

/-- The index of the current cluster, which is fetched only if it is not kept. -/
def getIndex (t : Transport σ) (k : Kubeconfig) (s : Session σ) :
    Except SchemaError Index × Session σ :=
  match s.cache.index with
  | some index => (.ok index, s)
  | none =>
    match server? k with
    | none => (.error .noActiveContext, s)
    | some server =>
      match s.fetch t k (server ++ indexPath) with
      | (.error e, s') => (.error (.ofTransport e), s')
      | (.ok body, s') =>
        match Index.decode body with
        | .error _ => (.error .noUsableApiDescription, s')
        | .ok index => (.ok index, s'.mapCache (storeIndex s.cache.epoch index))

/-- The schema of a kind within an API description, its references inlined. -/
def describe (apiVersion kind : String) (body : Json) : Except SchemaError Schema :=
  match ApiDescription.usable? body with
  | none => .error .noUsableApiDescription
  | some schemas =>
    match ApiDescription.find? (.ofApiVersion apiVersion kind) schemas with
    | none => .error (.resourceNotFound apiVersion kind)
    | some schema =>
      match Schema.decode (Schema.dereference schemas schema) with
      | .error _ => .error .noUsableApiDescription
      | .ok s => .ok s

/-- The schema of a kind in the current cluster. Nothing is fetched if it is kept. -/
def getSchema (t : Transport σ) (k : Kubeconfig) (apiVersion kind : String) (s : Session σ) :
    Except SchemaError Schema × Session σ :=
  match s.cache.kinds.lookup (key apiVersion kind) with
  | some schema => (.ok schema, s)
  | none =>
    match getIndex t k s with
    | (.error e, s₁) => (.error e, s₁)
    | (.ok index, s₁) =>
      match index.url? apiVersion with
      | none => (.error (.resourceNotFound apiVersion kind), s₁)
      | some url =>
        match server? k with
        | none => (.error .noActiveContext, s₁)
        | some server =>
          match s₁.fetch t k (server ++ url) with
          | (.error e, s₂) => (.error (.ofTransport e), s₂)
          | (.ok body, s₂) =>
            match describe apiVersion kind body with
            | .error e => (.error e, s₂)
            | .ok schema =>
              (.ok schema, s₂.mapCache (storeKind s.cache.epoch (key apiVersion kind) schema))

end SchemaCache

end ManifestForm
