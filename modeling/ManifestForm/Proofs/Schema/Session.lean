import ManifestForm.Schema.Cache

/-!
# Requests of a session

A request for the index or for a schema ends in one of a few ways. Each way is
a constructor of a relation between the session before, the answer and the
session after, and the relation is the graph of the function that runs.

A session whose transport imitates another one step by step answers as the
other does, so forgetting a part of the state that no answer depends on leaves
every run as it is.
-/

namespace ManifestForm.SchemaCache

variable {σ τ : Type}

section Events

section Clears

variable (n : Nat) (c : SchemaCache)

theorem epoch_add_one_add (e : UInt64) : e + 1 + UInt64.ofNat n = e + UInt64.ofNat (n + 1) := by
  rw [UInt64.ofNat_add, UInt64.add_assoc, UInt64.add_comm 1]
  rfl

@[simp]
theorem clearTimes_epoch : (clearTimes n c).epoch = c.epoch + UInt64.ofNat n := by
  induction n generalizing c with
  | zero => simp [clearTimes]
  | succ n ih =>
      rw [clearTimes, ih]
      exact epoch_add_one_add n c.epoch

/-- One clear leaves no index and no schemas, whatever comes after it. -/
theorem clearTimes_succ :
    clearTimes (n + 1) c = ⟨c.epoch + UInt64.ofNat (n + 1), none, []⟩ := by
  induction n generalizing c with
  | zero => rfl
  | succ n ih =>
      rw [clearTimes, ih, clear, epoch_add_one_add]

/-- After clears the cache is as it was, or there was one and nothing is kept. -/
theorem clearTimes_eq_or :
    (n = 0 ∧ clearTimes n c = c) ∨
      ((clearTimes n c).index = none ∧ (clearTimes n c).kinds = []) := by
  cases n with
  | zero => exact .inl ⟨rfl, rfl⟩
  | succ n =>
      rw [clearTimes_succ]
      exact .inr ⟨rfl, rfl⟩

end Clears

section Stores

variable {epoch : UInt64} {c : SchemaCache}

theorem storeIndex_epoch (epoch : UInt64) (index : Index) (c : SchemaCache) :
    (c.storeIndex epoch index).epoch = c.epoch := by
  unfold storeIndex
  split <;> rfl

theorem storeKind_epoch (epoch : UInt64) (κ : String) (schema : Schema) (c : SchemaCache) :
    (c.storeKind epoch κ schema).epoch = c.epoch := by
  unfold storeKind
  split <;> rfl

theorem storeIndex_of_ne {index : Index} (hended : c.epoch ≠ epoch) :
    c.storeIndex epoch index = c := if_neg hended

theorem storeKind_of_ne {κ : String} {schema : Schema} (hended : c.epoch ≠ epoch) :
    c.storeKind epoch κ schema = c := if_neg hended

end Stores

/-- A fetch gives the outcome of a reply and clears the cache as often as the reply says. -/
theorem fetch_eq_iff {t : Transport σ} {k : Kubeconfig} {url : String} {s s' : Session σ}
    {outcome : Except TransportError Json} :
    s.fetch t k url = (outcome, s') ↔
      (t k url s.transport).1.outcome = outcome ∧
        s' = ⟨s.cache.clearTimes (t k url s.transport).1.clears, (t k url s.transport).2⟩ := by
  simp only [Session.fetch, Prod.mk.injEq, eq_comm (a := s')]

end Events

/-- The kept index has one property, and the kept schemas with their keys have another one. -/
structure Keeps (I : Index → Prop) (K : String → Schema → Prop) (c : SchemaCache) : Prop where
  index : ∀ index, c.index = some index → I index
  kinds : ∀ entry ∈ c.kinds, K entry.1 entry.2

section Keeps

variable {I J : Index → Prop} {K L : String → Schema → Prop} {c : SchemaCache}

theorem keeps_of_nothing (hindex : c.index = none) (hkinds : c.kinds = []) : Keeps I K c where
  index := by simp [hindex]
  kinds := by simp [hkinds]

theorem Keeps.mono (hindex : ∀ i, I i → J i) (hkinds : ∀ κ schema, K κ schema → L κ schema)
    (hkeeps : Keeps I K c) : Keeps J L c where
  index := fun i hkept => hindex i (hkeeps.index i hkept)
  kinds := fun entry hmem => hkinds entry.1 entry.2 (hkeeps.kinds entry hmem)

theorem Keeps.of_lookup {κ : String} {schema : Schema} (hkeeps : Keeps I K c)
    (hhit : c.kinds.lookup κ = some schema) : K κ schema := by
  obtain ⟨before, after, hkinds, -⟩ := List.lookup_eq_some_iff.mp hhit
  exact hkeeps.kinds (κ, schema) (by simp [hkinds])

theorem Keeps.clearTimes (n : Nat) (hkeeps : Keeps I K c) : Keeps I K (c.clearTimes n) := by
  rcases clearTimes_eq_or n c with ⟨-, hsame⟩ | ⟨hindex, hkinds⟩
  · rw [hsame]
    exact hkeeps
  · exact keeps_of_nothing hindex hkinds

theorem Keeps.storeIndex {epoch : UInt64} {index : Index} (hholds : I index)
    (hkeeps : Keeps I K c) : Keeps I K (c.storeIndex epoch index) := by
  unfold SchemaCache.storeIndex
  split
  · refine ⟨?_, hkeeps.kinds⟩
    rintro _ ⟨⟩
    exact hholds
  · exact hkeeps

theorem Keeps.storeKind {epoch : UInt64} {κ : String} {schema : Schema} (hholds : K κ schema)
    (hkeeps : Keeps I K c) : Keeps I K (c.storeKind epoch κ schema) := by
  unfold SchemaCache.storeKind
  split
  · refine ⟨hkeeps.index, ?_⟩
    intro entry hmem
    rcases List.mem_cons.mp hmem with rfl | hmem
    · exact hholds
    · exact hkeeps.kinds entry hmem
  · exact hkeeps

end Keeps

section Requests

/-- How a request for the index ends. -/
inductive IndexStep (t : Transport σ) (k : Kubeconfig) (s : Session σ) :
    Except SchemaError Index → Session σ → Prop
  | kept {index : Index} (hhit : s.cache.index = some index) : IndexStep t k s (.ok index) s
  | noCluster (hmiss : s.cache.index = none) (hunbound : server? k = none) :
      IndexStep t k s (.error .noActiveContext) s
  | unanswered {server : String} {e : TransportError} {s' : Session σ}
      (hmiss : s.cache.index = none) (hbound : server? k = some server)
      (hfetched : s.fetch t k (server ++ indexPath) = (.error e, s')) :
      IndexStep t k s (.error (.ofTransport e)) s'
  | malformed {server : String} {body : Json} {fault : DecodeError} {s' : Session σ}
      (hmiss : s.cache.index = none) (hbound : server? k = some server)
      (hfetched : s.fetch t k (server ++ indexPath) = (.ok body, s'))
      (hdecoded : Index.decode body = .error fault) :
      IndexStep t k s (.error .noUsableApiDescription) s'
  | listed {server : String} {body : Json} {index : Index} {s' : Session σ}
      (hmiss : s.cache.index = none) (hbound : server? k = some server)
      (hfetched : s.fetch t k (server ++ indexPath) = (.ok body, s'))
      (hdecoded : Index.decode body = .ok index) :
      IndexStep t k s (.ok index) (s'.mapCache (storeIndex s.cache.epoch index))

/-- How a request for the schema of a kind ends. -/
inductive SchemaStep (t : Transport σ) (k : Kubeconfig) (apiVersion kind : String)
    (s : Session σ) : Except SchemaError Schema → Session σ → Prop
  | kept {schema : Schema} (hhit : s.cache.kinds.lookup (key apiVersion kind) = some schema) :
      SchemaStep t k apiVersion kind s (.ok schema) s
  | noIndex {e : SchemaError} {s₁ : Session σ}
      (hmiss : s.cache.kinds.lookup (key apiVersion kind) = none)
      (hasked : IndexStep t k s (.error e) s₁) :
      SchemaStep t k apiVersion kind s (.error e) s₁
  | notListed {index : Index} {s₁ : Session σ}
      (hmiss : s.cache.kinds.lookup (key apiVersion kind) = none)
      (hasked : IndexStep t k s (.ok index) s₁) (hunlisted : index.url? apiVersion = none) :
      SchemaStep t k apiVersion kind s (.error (.resourceNotFound apiVersion kind)) s₁
  | noCluster {index : Index} {url : String} {s₁ : Session σ}
      (hmiss : s.cache.kinds.lookup (key apiVersion kind) = none)
      (hasked : IndexStep t k s (.ok index) s₁) (hlisted : index.url? apiVersion = some url)
      (hunbound : server? k = none) :
      SchemaStep t k apiVersion kind s (.error .noActiveContext) s₁
  | unanswered {index : Index} {url server : String} {e : TransportError} {s₁ s₂ : Session σ}
      (hmiss : s.cache.kinds.lookup (key apiVersion kind) = none)
      (hasked : IndexStep t k s (.ok index) s₁) (hlisted : index.url? apiVersion = some url)
      (hbound : server? k = some server)
      (hfetched : s₁.fetch t k (server ++ url) = (.error e, s₂)) :
      SchemaStep t k apiVersion kind s (.error (.ofTransport e)) s₂
  | undescribed {index : Index} {url server : String} {body : Json} {e : SchemaError}
      {s₁ s₂ : Session σ}
      (hmiss : s.cache.kinds.lookup (key apiVersion kind) = none)
      (hasked : IndexStep t k s (.ok index) s₁) (hlisted : index.url? apiVersion = some url)
      (hbound : server? k = some server)
      (hfetched : s₁.fetch t k (server ++ url) = (.ok body, s₂))
      (hunknown : describe apiVersion kind body = .error e) :
      SchemaStep t k apiVersion kind s (.error e) s₂
  | described {index : Index} {url server : String} {body : Json} {schema : Schema}
      {s₁ s₂ : Session σ}
      (hmiss : s.cache.kinds.lookup (key apiVersion kind) = none)
      (hasked : IndexStep t k s (.ok index) s₁) (hlisted : index.url? apiVersion = some url)
      (hbound : server? k = some server)
      (hfetched : s₁.fetch t k (server ++ url) = (.ok body, s₂))
      (hknown : describe apiVersion kind body = .ok schema) :
      SchemaStep t k apiVersion kind s (.ok schema)
        (s₂.mapCache (storeKind s.cache.epoch (key apiVersion kind) schema))

/-- Every request for the index ends in one of its ways. -/
theorem getIndex_step (t : Transport σ) (k : Kubeconfig) (s : Session σ) :
    IndexStep t k s (getIndex t k s).1 (getIndex t k s).2 := by
  unfold getIndex
  cases hhit : s.cache.index with
  | some index => exact .kept hhit
  | none =>
      cases hbound : server? k with
      | none => exact .noCluster hhit hbound
      | some server =>
          rcases hfetched : s.fetch t k (server ++ indexPath) with ⟨e | body, s'⟩
          · simp only [hfetched]
            exact .unanswered hhit hbound hfetched
          · cases hdecoded : Index.decode body with
            | error fault =>
                simp only [hfetched, hdecoded]
                exact .malformed hhit hbound hfetched hdecoded
            | ok index =>
                simp only [hfetched, hdecoded]
                exact .listed hhit hbound hfetched hdecoded

/-- An index step is what the request does. -/
theorem IndexStep.eq {t : Transport σ} {k : Kubeconfig} {s s' : Session σ}
    {r : Except SchemaError Index} (hstep : IndexStep t k s r s') : getIndex t k s = (r, s') := by
  cases hstep with
  | kept hhit => simp only [getIndex, hhit]
  | noCluster hmiss hunbound => simp only [getIndex, hmiss, hunbound]
  | unanswered hmiss hbound hfetched => simp only [getIndex, hmiss, hbound, hfetched]
  | malformed hmiss hbound hfetched hdecoded =>
      simp only [getIndex, hmiss, hbound, hfetched, hdecoded]
  | listed hmiss hbound hfetched hdecoded => simp only [getIndex, hmiss, hbound, hfetched, hdecoded]

/-- Every request for a schema ends in one of its ways. -/
theorem getSchema_step (t : Transport σ) (k : Kubeconfig) (apiVersion kind : String)
    (s : Session σ) :
    SchemaStep t k apiVersion kind s (getSchema t k apiVersion kind s).1
      (getSchema t k apiVersion kind s).2 := by
  unfold getSchema
  cases hhit : s.cache.kinds.lookup (key apiVersion kind) with
  | some schema => exact .kept hhit
  | none =>
      have hasked := getIndex_step t k s
      rcases hfound : getIndex t k s with ⟨e | index, s₁⟩
      · rw [hfound] at hasked
        exact .noIndex hhit hasked
      · rw [hfound] at hasked
        cases hlisted : index.url? apiVersion with
        | none =>
            simp only [hlisted]
            exact .notListed hhit hasked hlisted
        | some url =>
            cases hbound : server? k with
            | none =>
                simp only [hlisted]
                exact .noCluster hhit hasked hlisted hbound
            | some server =>
                rcases hfetched : s₁.fetch t k (server ++ url) with ⟨e | body, s₂⟩
                · simp only [hlisted, hfetched]
                  exact .unanswered hhit hasked hlisted hbound hfetched
                · cases hknown : describe apiVersion kind body with
                  | error e =>
                      simp only [hlisted, hfetched, hknown]
                      exact .undescribed hhit hasked hlisted hbound hfetched hknown
                  | ok schema =>
                      simp only [hlisted, hfetched, hknown]
                      exact .described hhit hasked hlisted hbound hfetched hknown

/-- A schema step is what the request does. -/
theorem SchemaStep.eq {t : Transport σ} {k : Kubeconfig} {apiVersion kind : String}
    {s s' : Session σ} {r : Except SchemaError Schema}
    (hstep : SchemaStep t k apiVersion kind s r s') :
    getSchema t k apiVersion kind s = (r, s') := by
  cases hstep with
  | kept hhit => simp only [getSchema, hhit]
  | noIndex hmiss hasked => simp only [getSchema, hmiss, hasked.eq]
  | notListed hmiss hasked hunlisted => simp only [getSchema, hmiss, hasked.eq, hunlisted]
  | noCluster hmiss hasked hlisted hunbound =>
      simp only [getSchema, hmiss, hasked.eq, hlisted, hunbound]
  | unanswered hmiss hasked hlisted hbound hfetched =>
      simp only [getSchema, hmiss, hasked.eq, hlisted, hbound, hfetched]
  | undescribed hmiss hasked hlisted hbound hfetched hunknown =>
      simp only [getSchema, hmiss, hasked.eq, hlisted, hbound, hfetched, hunknown]
  | described hmiss hasked hlisted hbound hfetched hknown =>
      simp only [getSchema, hmiss, hasked.eq, hlisted, hbound, hfetched, hknown]

end Requests

/-- The same cache beside the image of the transport's state. -/
def Session.mapTransport (f : σ → τ) (s : Session σ) : Session τ := ⟨s.cache, f s.transport⟩

theorem Session.mapTransport_mapCache (f : σ → τ) (g : SchemaCache → SchemaCache)
    (s : Session σ) : (s.mapCache g).mapTransport f = (s.mapTransport f).mapCache g := rfl

/-- A transport gives on the image of a state the reply of the other one on the state. -/
def Imitates (u : Transport τ) (t : Transport σ) (f : σ → τ) : Prop :=
  ∀ k url x, u k url (f x) = ((t k url x).1, f (t k url x).2)

section Imitation

variable {t : Transport σ} {u : Transport τ} {f : σ → τ} {k : Kubeconfig} {s s' : Session σ}

theorem Imitates.fetch (himitates : Imitates u t f) {url : String}
    {outcome : Except TransportError Json} (hfetched : s.fetch t k url = (outcome, s')) :
    (s.mapTransport f).fetch u k url = (outcome, s'.mapTransport f) := by
  obtain ⟨rfl, rfl⟩ := Prod.mk.inj hfetched
  simp only [Session.fetch, Session.mapTransport, himitates k url s.transport]

/-- Index steps carry over to the image. -/
theorem Imitates.indexStep (himitates : Imitates u t f) {r : Except SchemaError Index}
    (hstep : IndexStep t k s r s') :
    IndexStep u k (s.mapTransport f) r (s'.mapTransport f) := by
  cases hstep with
  | kept hhit => exact .kept hhit
  | noCluster hmiss hunbound => exact .noCluster hmiss hunbound
  | unanswered hmiss hbound hfetched => exact .unanswered hmiss hbound (himitates.fetch hfetched)
  | malformed hmiss hbound hfetched hdecoded =>
      exact .malformed hmiss hbound (himitates.fetch hfetched) hdecoded
  | listed hmiss hbound hfetched hdecoded =>
      rw [Session.mapTransport_mapCache]
      exact .listed hmiss hbound (himitates.fetch hfetched) hdecoded

/-- Schema steps carry over to the image. -/
theorem Imitates.schemaStep (himitates : Imitates u t f) {apiVersion kind : String}
    {r : Except SchemaError Schema} (hstep : SchemaStep t k apiVersion kind s r s') :
    SchemaStep u k apiVersion kind (s.mapTransport f) r (s'.mapTransport f) := by
  cases hstep with
  | kept hhit => exact .kept hhit
  | noIndex hmiss hasked => exact .noIndex hmiss (himitates.indexStep hasked)
  | notListed hmiss hasked hunlisted =>
      exact .notListed hmiss (himitates.indexStep hasked) hunlisted
  | noCluster hmiss hasked hlisted hunbound =>
      exact .noCluster hmiss (himitates.indexStep hasked) hlisted hunbound
  | unanswered hmiss hasked hlisted hbound hfetched =>
      exact .unanswered hmiss (himitates.indexStep hasked) hlisted hbound (himitates.fetch hfetched)
  | undescribed hmiss hasked hlisted hbound hfetched hunknown =>
      exact .undescribed hmiss (himitates.indexStep hasked) hlisted hbound
        (himitates.fetch hfetched) hunknown
  | described hmiss hasked hlisted hbound hfetched hknown =>
      rw [Session.mapTransport_mapCache]
      exact .described hmiss (himitates.indexStep hasked) hlisted hbound
        (himitates.fetch hfetched) hknown

/-- The imitating session gives the same index and ends in the image. -/
theorem Imitates.getIndex (himitates : Imitates u t f) (k : Kubeconfig) (s : Session σ) :
    SchemaCache.getIndex u k (s.mapTransport f) =
      ((SchemaCache.getIndex t k s).1, (SchemaCache.getIndex t k s).2.mapTransport f) :=
  (himitates.indexStep (getIndex_step t k s)).eq

/-- The imitating session gives the same schema and ends in the image. -/
theorem Imitates.getSchema (himitates : Imitates u t f) (k : Kubeconfig)
    (apiVersion kind : String) (s : Session σ) :
    SchemaCache.getSchema u k apiVersion kind (s.mapTransport f) =
      ((SchemaCache.getSchema t k apiVersion kind s).1,
        (SchemaCache.getSchema t k apiVersion kind s).2.mapTransport f) :=
  (himitates.schemaStep (getSchema_step t k apiVersion kind s)).eq

end Imitation

section Runs

/-- What a session can be called for. -/
inductive Call where
  | index
  | schema (apiVersion kind : String)
  | clear
  deriving DecidableEq, Repr

/-- The session after a call under a kubeconfig, which a clear does not look at. -/
def Call.run (t : Transport σ) (k : Kubeconfig) (call : Call) (s : Session σ) : Session σ :=
  match call with
  | .index => (getIndex t k s).2
  | .schema apiVersion kind => (getSchema t k apiVersion kind s).2
  | .clear => s.clear

/-- The imitating session ends every call in the image. -/
theorem Imitates.run {t : Transport σ} {u : Transport τ} {f : σ → τ} (himitates : Imitates u t f)
    (k : Kubeconfig) (call : Call) (s : Session σ) :
    call.run u k (s.mapTransport f) = (call.run t k s).mapTransport f := by
  cases call with
  | index => exact congrArg Prod.snd (himitates.getIndex k s)
  | schema apiVersion kind => exact congrArg Prod.snd (himitates.getSchema k apiVersion kind s)
  | clear => rfl

/-- The session after calls in their order, each under a kubeconfig of its own. -/
def runAll (t : Transport σ) (calls : List (Kubeconfig × Call)) (s : Session σ) : Session σ :=
  calls.foldl (fun s (k, call) => call.run t k s) s

end Runs

section Example

/-- A transport without a state of its own, by its answers to URLs and its clears for them. -/
def transportOf (answer : String → Except TransportError Json) (clears : String → Nat) :
    Transport Unit := fun _ url x => (⟨answer url, clears url⟩, x)

/-- A description of deployments, and the index that lists it. -/
def deployments (url : String) : Except TransportError Json :=
  if url = "http://c/openapi/v3" then
    .ok (.obj [("paths", .obj [("apis/apps/v1", .obj [("serverRelativeURL", .str "/apps")])])])
  else if url = "http://c/apps" then
    .ok (.obj [("openapi", .str "3.0.0"), ("components", .obj [("schemas", .obj [("Deployment", .obj
      [("type", .str "object"),
        ("x-kubernetes-group-version-kind", .arr [.obj [("group", .str "apps"),
          ("version", .str "v1"), ("kind", .str "Deployment")]])])])])])
  else .error (.status url 404)

def oneCluster : Kubeconfig :=
  ⟨some "here", some [⟨"c", ⟨"http://c/", none, none, false⟩⟩],
    some [⟨"here", ⟨"c", none, none⟩⟩], none, none⟩

end Example

end ManifestForm.SchemaCache
