import ManifestForm.Proofs.Schema.Descriptions
import ManifestForm.Proofs.Schema.Fetches

/-!
# Causes of failures

An empty cache asks for the index of a cluster and then for one description.
What it was told decides how a request for a schema ends, and every error has
causes of its own.
-/

namespace ManifestForm

namespace TransportError

/-- There is no cluster to reach. -/
def IsUnreachable : TransportError → Prop
  | .connectionRefused _ | .noCluster => True
  | _ => False

/-- There is a cluster, but it does not answer the URL with a JSON document. -/
def IsUnserved : TransportError → Prop
  | .status .. | .invalidBody _ => True
  | _ => False

end TransportError

namespace SchemaError

open TransportError

variable {e : TransportError}

theorem ofTransport_eq_noActiveContext_iff :
    ofTransport e = .noActiveContext ↔ e.IsUnreachable := by
  cases e <;> simp [ofTransport, IsUnreachable]

theorem ofTransport_eq_noUsableApiDescription_iff :
    ofTransport e = .noUsableApiDescription ↔ e.IsUnserved := by
  cases e <;> simp [ofTransport, IsUnserved]

theorem ofTransport_eq_transport_iff {e' : TransportError} :
    ofTransport e = .transport e' ↔ e' = e ∧ ¬ e'.IsUnreachable ∧ ¬ e'.IsUnserved := by
  cases e <;> cases e' <;> simp [ofTransport, IsUnreachable, IsUnserved, eq_comm]

theorem ofTransport_ne_resourceNotFound (apiVersion kind : String) :
    ofTransport e ≠ .resourceNotFound apiVersion kind := by
  cases e <;> simp [ofTransport]

end SchemaError

/-- A URL that was fetched, with the outcome. -/
abbrev Answer := String × Except TransportError Json

/-- The answer to a fetch. -/
def Event.answer? : Event → Option Answer
  | .fetched _ url outcome => some (url, outcome)
  | _ => none

namespace SchemaCache

open ApiDescription

variable {σ : Type} {t : Transport σ} {k : Kubeconfig} {apiVersion kind : String}

/-- The answers that a session has been given, in their order. -/
def Session.answers (s : Session (σ × List Event)) : List Answer :=
  s.log.reverse.filterMap Event.answer?

/-- The answers to the fetches of a call. -/
def Call.answers (t : Transport σ) (k : Kubeconfig) (call : Call) (s : Session σ) : List Answer :=
  (call.fetches t k s).filterMap Event.answer?

theorem answers_of_fetch {s s' : Session (σ × List Event)} {url : String}
    {outcome : Except TransportError Json} (hfetched : s.fetch t.recorded k url = (outcome, s')) :
    s'.answers = s.answers ++ [(url, outcome)] := by
  obtain ⟨n, hlog, -⟩ := fetch_recorded hfetched
  have hsilent : (List.replicate n Event.cleared).filterMap Event.answer? = [] := by
    simp [Event.answer?]
  simp [Session.answers, hlog, List.filterMap_append, hsilent, Event.answer?]

/-- The first answer was an index. -/
def GivesIndex (answers : List Answer) (index : Index) : Prop :=
  ∃ url body, answers[0]? = some (url, .ok body) ∧ Index.decode body = .ok index

/-- The second answer was a JSON document. -/
def GivesDocument (answers : List Answer) (body : Json) : Prop :=
  ∃ url, answers[1]? = some (url, .ok body)

section Answers

variable {url : String} {outcome : Except TransportError Json} {answers : List Answer}

@[simp]
theorem not_givesIndex_nil (index : Index) : ¬ GivesIndex [] index := by
  simp [GivesIndex]

/-- The first answer gives the index, if any does. -/
@[simp]
theorem givesIndex_cons_iff {index : Index} :
    GivesIndex ((url, outcome) :: answers) index ↔
      ∃ body, outcome = .ok body ∧ Index.decode body = .ok index := by
  simp [GivesIndex]

@[simp]
theorem not_givesDocument_nil (body : Json) : ¬ GivesDocument [] body := by
  simp [GivesDocument]

@[simp]
theorem not_givesDocument_singleton (answer : Answer) (body : Json) :
    ¬ GivesDocument [answer] body := by
  simp [GivesDocument]

/-- The second answer gives the document. -/
@[simp]
theorem givesDocument_pair_iff {first : Answer} {body : Json} :
    GivesDocument [first, (url, outcome)] body ↔ outcome = .ok body := by
  simp [GivesDocument]

end Answers

theorem server?_eq_none_iff : server? k = none ↔ k.currentCluster? = none := Option.map_eq_none_iff

/-- What is fetched for a schema. Without a cluster that is nothing, and else the index; behind a
usable index that lists the API version, and behind no other answer, it is the description that
stands there. -/
inductive Fetched (k : Kubeconfig) (apiVersion : String) : List Answer → Prop
  | nothing (hunbound : k.currentCluster? = none) : Fetched k apiVersion []
  | index {server : String} {outcome : Except TransportError Json}
      (hbound : server? k = some server)
      (huseless : ∀ index, GivesIndex [(server ++ indexPath, outcome)] index →
        index.url? apiVersion = none) :
      Fetched k apiVersion [(server ++ indexPath, outcome)]
  | description {server url : String} {body : Json} {index : Index}
      {outcome : Except TransportError Json} (hbound : server? k = some server)
      (hdecoded : Index.decode body = .ok index) (hlisted : index.url? apiVersion = some url) :
      Fetched k apiVersion [(server ++ indexPath, .ok body), (server ++ url, outcome)]

section Endings

/-- How a request for a schema to an empty cache ends, whatever the answers are. -/
inductive Ending (k : Kubeconfig) (apiVersion kind : String) :
    List Answer → Except SchemaError Schema → Prop
  | unbound (hunbound : server? k = none) : Ending k apiVersion kind [] (.error .noActiveContext)
  | unanswered {server : String} {e : TransportError} (hbound : server? k = some server) :
      Ending k apiVersion kind [(server ++ indexPath, .error e)] (.error (.ofTransport e))
  | malformed {server : String} {body : Json} {fault : DecodeError}
      (hbound : server? k = some server) (hdecoded : Index.decode body = .error fault) :
      Ending k apiVersion kind [(server ++ indexPath, .ok body)] (.error .noUsableApiDescription)
  | unlisted {server : String} {body : Json} {index : Index} (hbound : server? k = some server)
      (hdecoded : Index.decode body = .ok index) (hunlisted : index.url? apiVersion = none) :
      Ending k apiVersion kind [(server ++ indexPath, .ok body)]
        (.error (.resourceNotFound apiVersion kind))
  | undelivered {server url : String} {body : Json} {index : Index} {e : TransportError}
      (hbound : server? k = some server) (hdecoded : Index.decode body = .ok index)
      (hlisted : index.url? apiVersion = some url) :
      Ending k apiVersion kind [(server ++ indexPath, .ok body), (server ++ url, .error e)]
        (.error (.ofTransport e))
  | described {server url : String} {body document : Json} {index : Index}
      (hbound : server? k = some server) (hdecoded : Index.decode body = .ok index)
      (hlisted : index.url? apiVersion = some url) :
      Ending k apiVersion kind [(server ++ indexPath, .ok body), (server ++ url, .ok document)]
        (describe apiVersion kind document)

section Steps

variable {s s₁ s₂ : Session (σ × List Event)}

@[simp]
theorem answers_mapCache (f : SchemaCache → SchemaCache) (s : Session (σ × List Event)) :
    (s.mapCache f).answers = s.answers := rfl

/-- An index that was not there has been fetched. -/
theorem IndexStep.answers_of_miss {index : Index} (hmiss : s.cache.index = none)
    (hstep : IndexStep t.recorded k s (.ok index) s₁) :
    ∃ server body, server? k = some server ∧ Index.decode body = .ok index ∧
      s₁.answers = s.answers ++ [(server ++ indexPath, .ok body)] := by
  cases hstep with
  | kept hhit => cases hmiss.symm.trans hhit
  | listed _ hbound hfetched hdecoded =>
      exact ⟨_, _, hbound, hdecoded, by rw [answers_mapCache, answers_of_fetch hfetched]⟩

/-- And a description is fetched from the same server. -/
theorem IndexStep.answers_of_description {index : Index} (hmiss : s.cache.index = none)
    (hasked : IndexStep t.recorded k s (.ok index) s₁) {server url : String}
    (hbound : server? k = some server) {outcome : Except TransportError Json}
    (hfetched : s₁.fetch t.recorded k (server ++ url) = (outcome, s₂)) :
    ∃ body, Index.decode body = .ok index ∧
      s₂.answers = s.answers ++ [(server ++ indexPath, .ok body), (server ++ url, outcome)] := by
  obtain ⟨server', body, hbound', hdecoded, hanswers⟩ := hasked.answers_of_miss hmiss
  obtain rfl := Option.some.inj (hbound.symm.trans hbound')
  refine ⟨body, hdecoded, ?_⟩
  rw [answers_of_fetch hfetched, hanswers, List.append_assoc]
  rfl

/-- Without an index and schemas a request ends in one of these ways. -/
theorem ending_of_schemaStep {r : Except SchemaError Schema} (hmissing : s.cache.index = none)
    (hnothing : s.cache.kinds = []) (hsilent : s.answers = [])
    (hstep : SchemaStep t.recorded k apiVersion kind s r s₂) :
    Ending k apiVersion kind s₂.answers r := by
  cases hstep with
  | kept hhit => simp [hnothing] at hhit
  | noIndex _ hasked =>
      cases hasked with
      | noCluster _ hunbound =>
          rw [hsilent]
          exact .unbound hunbound
      | unanswered _ hbound hfetched =>
          rw [answers_of_fetch hfetched, hsilent]
          exact .unanswered hbound
      | malformed _ hbound hfetched hdecoded =>
          rw [answers_of_fetch hfetched, hsilent]
          exact .malformed hbound hdecoded
  | notListed _ hasked hunlisted =>
      obtain ⟨server, body, hbound, hdecoded, hanswers⟩ := hasked.answers_of_miss hmissing
      rw [hanswers, hsilent]
      exact .unlisted hbound hdecoded hunlisted
  | noCluster _ hasked hlisted hunbound =>
      -- The index has come from a server, and the kubeconfig is still the same.
      obtain ⟨server, body, hbound, -, -⟩ := hasked.answers_of_miss hmissing
      cases hunbound.symm.trans hbound
  | unanswered _ hasked hlisted hbound hfetched =>
      obtain ⟨body, hdecoded, hanswers⟩ := hasked.answers_of_description hmissing hbound hfetched
      rw [hanswers, hsilent]
      exact .undelivered hbound hdecoded hlisted
  | undescribed _ hasked hlisted hbound hfetched hunknown =>
      obtain ⟨body, hdecoded, hanswers⟩ := hasked.answers_of_description hmissing hbound hfetched
      rw [hanswers, hsilent, ← hunknown]
      exact .described hbound hdecoded hlisted
  | described _ hasked hlisted hbound hfetched hknown =>
      obtain ⟨body, hdecoded, hanswers⟩ := hasked.answers_of_description hmissing hbound hfetched
      rw [answers_mapCache, hanswers, hsilent, ← hknown]
      exact .described hbound hdecoded hlisted

end Steps

/-- A request for a schema ends in one of these ways. -/
theorem ending_getSchema (t : Transport σ) (k : Kubeconfig) (apiVersion kind : String)
    (epoch : UInt64) (x : σ) :
    Ending k apiVersion kind ((Call.schema apiVersion kind).answers t k ⟨⟨epoch, none, []⟩, x⟩)
      (getSchema t k apiVersion kind ⟨⟨epoch, none, []⟩, x⟩).1 := by
  have hended := ending_of_schemaStep rfl rfl rfl
    (getSchema_step t.recorded k apiVersion kind (Session.recording ⟨⟨epoch, none, []⟩, x⟩))
  have hsame := congrArg Prod.fst ((imitates_recorded t).getSchema k apiVersion kind
    (Session.recording ⟨⟨epoch, none, []⟩, x⟩))
  exact hsame ▸ hended

end Endings

section Explanations

section Causes

variable {answers : List Answer} {r : Except SchemaError Schema}

/-- How a request for a schema ends, by what was fetched for it: with a schema, or with an error
that has its own causes and no others. -/
structure Explained (k : Kubeconfig) (apiVersion kind : String) (answers : List Answer)
    (r : Except SchemaError Schema) : Prop where
  fetched : Fetched k apiVersion answers
  ok : ∀ s, r = .ok s ↔ ∃ body, GivesDocument answers body ∧ Describes apiVersion kind body (.ok s)
  noActiveContext : r = .error .noActiveContext ↔ k.currentCluster? = none ∨
    ∃ url e, (url, .error e) ∈ answers ∧ e.IsUnreachable
  resourceNotFound : ∀ v n, r = .error (.resourceNotFound v n) ↔
    (v = apiVersion ∧ n = kind) ∧ ((∃ index, GivesIndex answers index ∧
      index.url? apiVersion = none) ∨ ∃ body, GivesDocument answers body ∧
        LacksKind apiVersion kind body)
  transport : ∀ e, r = .error (.transport e) ↔
    (∃ url, (url, .error e) ∈ answers) ∧ ¬ e.IsUnreachable ∧ ¬ e.IsUnserved
  noUsableApiDescription : r = .error .noUsableApiDescription ↔
    (∃ url e, (url, .error e) ∈ answers ∧ e.IsUnserved) ∨
    (∃ url body fault, answers[0]? = some (url, .ok body) ∧ Index.decode body = .error fault) ∨
    (∃ body, GivesDocument answers body ∧ ∀ schemas, ¬ IsUsable body schemas) ∨
    ∃ body fault, GivesDocument answers body ∧ Describes apiVersion kind body (.error fault)

/-- The answers are those of the index and then of the document. -/
theorem Ending.fetched (hended : Ending k apiVersion kind answers r) :
    Fetched k apiVersion answers := by
  cases hended with
  | unbound hunbound => exact .nothing (server?_eq_none_iff.mp hunbound)
  | unanswered hbound => exact .index hbound (by simp)
  | malformed hbound hdecoded => exact .index hbound (by simp [hdecoded])
  | unlisted hbound hdecoded hunlisted => exact .index hbound (by simp [hdecoded, hunlisted])
  | undelivered hbound hdecoded hlisted => exact .description hbound hdecoded hlisted
  | described hbound hdecoded hlisted => exact .description hbound hdecoded hlisted

theorem Ending.ok_iff (hended : Ending k apiVersion kind answers r) (s : Schema) :
    r = .ok s ↔ ∃ body, GivesDocument answers body ∧ Describes apiVersion kind body (.ok s) := by
  cases hended with
  | unbound hunbound => simp
  | unanswered hbound => simp
  | malformed hbound hdecoded => simp
  | unlisted hbound hdecoded hunlisted => simp
  | undelivered hbound hdecoded hlisted => simp
  | described hbound hdecoded hlisted => simp [describe_eq_ok_iff]

theorem Ending.noActiveContext_iff (hended : Ending k apiVersion kind answers r) :
    r = .error .noActiveContext ↔ k.currentCluster? = none ∨
      ∃ url e, (url, .error e) ∈ answers ∧ e.IsUnreachable := by
  rw [← server?_eq_none_iff]
  cases hended with
  | unbound hunbound => simp [hunbound]
  | unanswered hbound => simp [hbound, SchemaError.ofTransport_eq_noActiveContext_iff]
  | malformed hbound hdecoded => simp [hbound]
  | unlisted hbound hdecoded hunlisted => simp [hbound]
  | undelivered hbound hdecoded hlisted =>
      simp [hbound, SchemaError.ofTransport_eq_noActiveContext_iff]
  | described hbound hdecoded hlisted => simp [hbound, describe_ne_noActiveContext]

theorem Ending.resourceNotFound_iff (hended : Ending k apiVersion kind answers r) (v n : String) :
    r = .error (.resourceNotFound v n) ↔
      (v = apiVersion ∧ n = kind) ∧ ((∃ index, GivesIndex answers index ∧
        index.url? apiVersion = none) ∨ ∃ body, GivesDocument answers body ∧
          LacksKind apiVersion kind body) := by
  cases hended with
  | unbound hunbound => simp
  | unanswered hbound => simp [SchemaError.ofTransport_ne_resourceNotFound]
  | malformed hbound hdecoded => simp [hdecoded]
  | unlisted hbound hdecoded hunlisted => simp [hdecoded, hunlisted, eq_comm]
  | undelivered hbound hdecoded hlisted =>
      simp [SchemaError.ofTransport_ne_resourceNotFound, hdecoded, hlisted]
  | described hbound hdecoded hlisted => simp [describe_eq_resourceNotFound_iff, hdecoded, hlisted]

theorem Ending.transport_iff (hended : Ending k apiVersion kind answers r) (e : TransportError) :
    r = .error (.transport e) ↔
      (∃ url, (url, .error e) ∈ answers) ∧ ¬ e.IsUnreachable ∧ ¬ e.IsUnserved := by
  cases hended with
  | unbound hunbound => simp
  | unanswered hbound => simp [SchemaError.ofTransport_eq_transport_iff]
  | malformed hbound hdecoded => simp
  | unlisted hbound hdecoded hunlisted => simp
  | undelivered hbound hdecoded hlisted => simp [SchemaError.ofTransport_eq_transport_iff]
  | described hbound hdecoded hlisted => simp [describe_ne_transport]

theorem Ending.noUsableApiDescription_iff (hended : Ending k apiVersion kind answers r) :
    r = .error .noUsableApiDescription ↔
      (∃ url e, (url, .error e) ∈ answers ∧ e.IsUnserved) ∨
      (∃ url body fault, answers[0]? = some (url, .ok body) ∧ Index.decode body = .error fault) ∨
      (∃ body, GivesDocument answers body ∧ ∀ schemas, ¬ IsUsable body schemas) ∨
      ∃ body fault, GivesDocument answers body ∧ Describes apiVersion kind body (.error fault) := by
  cases hended with
  | unbound hunbound => simp
  | unanswered hbound => simp [SchemaError.ofTransport_eq_noUsableApiDescription_iff]
  | malformed hbound hdecoded => simp [hdecoded]
  | unlisted hbound hdecoded hunlisted => simp [hdecoded]
  | undelivered hbound hdecoded hlisted =>
      simp [SchemaError.ofTransport_eq_noUsableApiDescription_iff, hdecoded]
  | described hbound hdecoded hlisted => simp [describe_eq_noUsableApiDescription_iff, hdecoded]

end Causes

/-- With an empty cache of any epoch, how a request for a schema ends is told by the answers to its
fetches. -/
theorem getSchema_explained (t : Transport σ) (k : Kubeconfig) (apiVersion kind : String)
    (epoch : UInt64) (x : σ) :
    Explained k apiVersion kind ((Call.schema apiVersion kind).answers t k ⟨⟨epoch, none, []⟩, x⟩)
      (getSchema t k apiVersion kind ⟨⟨epoch, none, []⟩, x⟩).1 := by
  have hended := ending_getSchema t k apiVersion kind epoch x
  exact {
    fetched := hended.fetched
    ok := hended.ok_iff
    noActiveContext := hended.noActiveContext_iff
    resourceNotFound := hended.resourceNotFound_iff
    transport := hended.transport_iff
    noUsableApiDescription := hended.noUsableApiDescription_iff }

/-- The description comes from where the index says. -/
example : ((Call.schema "apps/v1" "Deployment").answers (transportOf deployments fun _ => 0)
    oneCluster ⟨.empty, ()⟩).map Prod.fst = ["http://c/openapi/v3", "http://c/apps"] := by
  decide +kernel

end Explanations

end SchemaCache

end ManifestForm
