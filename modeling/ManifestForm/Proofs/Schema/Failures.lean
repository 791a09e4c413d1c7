import ManifestForm.Proofs.Schema.Fetches

/-!
# What failing requests leave behind

A request for the index that fails leaves the cache as it was. A request for a schema asks for the
index first, and from then on it changes the cache only if it succeeds. So all that a failing one
can leave is the index that it has fetched on its way.
-/

namespace ManifestForm.SchemaCache

variable {σ : Type} {t : Transport σ} {k : Kubeconfig}

section Steps

variable {s s' : Session σ}

theorem NeverClears.cache_of_failed_index (hnever : NeverClears t k) {e : SchemaError}
    (hstep : IndexStep t k s (.error e) s') : s'.cache = s.cache := by
  cases hstep with
  | noCluster hmiss hunbound => rfl
  | unanswered hmiss hbound hfetched => exact hnever.cache hfetched
  | malformed hmiss hbound hfetched hdecoded => exact hnever.cache hfetched

/-- Behind the request for the index nothing is kept until there is a schema. -/
theorem NeverClears.cache_of_failed_schema (hnever : NeverClears t k) {apiVersion kind : String}
    {e : SchemaError} (hstep : SchemaStep t k apiVersion kind s (.error e) s') :
    s'.cache = (Call.index.run t k s).cache := by
  rw [Call.run]
  cases hstep with
  | noIndex hmiss hasked => rw [hasked.eq]
  | notListed hmiss hasked hunlisted => rw [hasked.eq]
  | noCluster hmiss hasked hlisted hunbound => rw [hasked.eq]
  | unanswered hmiss hasked hlisted hbound hfetched => rw [hasked.eq, hnever.cache hfetched]
  | undescribed hmiss hasked hlisted hbound hfetched hunknown =>
      rw [hasked.eq, hnever.cache hfetched]

theorem miss_of_failed_schema {apiVersion kind : String} {e : SchemaError}
    (hstep : SchemaStep t k apiVersion kind s (.error e) s') :
    s.cache.kinds.lookup (key apiVersion kind) = none := by
  cases hstep with
  | noIndex hmiss hasked => exact hmiss
  | notListed hmiss hasked hunlisted => exact hmiss
  | noCluster hmiss hasked hlisted hunbound => exact hmiss
  | unanswered hmiss hasked hlisted hbound hfetched => exact hmiss
  | undescribed hmiss hasked hlisted hbound hfetched hunknown => exact hmiss

end Steps

theorem NeverClears.cache_of_indexStep (hnever : NeverClears t k)
    {s s' : Session (σ × List Event)} {r : Except SchemaError Index}
    (hstep : IndexStep t.recorded k s r s') :
    s'.cache = s.cache ∨
      s.cache.index = none ∧ ∃ index, s'.cache = { s.cache with index := some index } ∧
        IndexFrom s'.log index := by
  cases hstep with
  | kept hhit => exact .inl rfl
  | noCluster hmiss hunbound => exact .inl rfl
  | unanswered hmiss hbound hfetched => exact .inl (hnever.recorded.cache hfetched)
  | malformed hmiss hbound hfetched hdecoded => exact .inl (hnever.recorded.cache hfetched)
  | @listed server body index s₁ hmiss hbound hfetched hdecoded =>
      refine .inr ⟨hmiss, index, ?_, ?_⟩
      · simp only [Session.mapCache, SchemaCache.storeIndex, hnever.recorded.cache hfetched,
          if_true]
      · rw [log_mapCache, hnever.log_of_fetch hfetched]
        exact .intro hbound List.mem_cons_self hdecoded

/-- A request for the index leaves the cache, or it adds the index that it has fetched to a cache
without one. -/
theorem NeverClears.cache_of_index (hnever : NeverClears t k) (s : Session σ) :
    (Call.index.run t k s).cache = s.cache ∨
      s.cache.index = none ∧ ∃ index,
        (Call.index.run t k s).cache = { s.cache with index := some index } ∧
          IndexFrom (Call.index.fetches t k s) index := by
  rw [← cache_run_recording]
  rcases hnever.cache_of_indexStep (getIndex_step t.recorded k s.recording) with
    hsame | ⟨hmissing, index, hadded, hfound⟩
  · exact .inl hsame
  · exact .inr ⟨hmissing, index, hadded, hfound.mono fun e hmem => List.mem_reverse.mpr hmem⟩

/-- With a transport that never clears the cache, a request for the index that fails leaves the
cache as it was. One for a schema that fails, wherever it does, leaves the epoch and all schemas;
and it leaves the index too, or adds one that was missing and that it has decoded from an answer to
a fetch of its own. -/
theorem cache_of_failure (hnever : NeverClears t k) (s : Session σ) :
    (∀ e s', getIndex t k s = (.error e, s') → s'.cache = s.cache) ∧
    ∀ apiVersion kind e s', getSchema t k apiVersion kind s = (.error e, s') →
      s'.cache.epoch = s.cache.epoch ∧ s'.cache.kinds = s.cache.kinds ∧
        (s'.cache.index = s.cache.index ∨
          s.cache.index = none ∧ ∃ index, s'.cache.index = some index ∧
            IndexFrom ((Call.schema apiVersion kind).fetches t k s) index) := by
  constructor
  · intro e s' hfailed
    have hstep := getIndex_step t k s
    rw [hfailed] at hstep
    exact hnever.cache_of_failed_index hstep
  · intro apiVersion kind e s' hfailed
    have hstep := getSchema_step t k apiVersion kind s
    rw [hfailed] at hstep
    rw [hnever.cache_of_failed_schema hstep]
    rcases hnever.cache_of_index s with hsame | ⟨hmissing, index, hadded, hfound⟩
    · rw [hsame]
      exact ⟨rfl, rfl, .inl rfl⟩
    · obtain ⟨path, document, -, hfetches⟩ := hnever.fetches_of_miss (miss_of_failed_schema hstep)
      rw [hadded, hfetches]
      exact ⟨rfl, rfl, .inr ⟨hmissing, index, rfl, hfound.mono (List.subset_append_left _ _)⟩⟩

/-- The answer of a server that has no API descriptions. -/
def unserved (url : String) : Except TransportError Json := .error (.status url 404)

def onePod : SchemaCache := ⟨3, none, [("v1/Pod", .reference "Pod")]⟩

/-- A request for a kind that is not there keeps the index that it has fetched, and one for an index
that is not served keeps what was there. -/
theorem cache_of_missing_kind :
    (∀ answer, NeverClears (transportOf answer fun _ => 0) oneCluster) ∧
    (∃ s index, getSchema (transportOf deployments fun _ => 0) oneCluster "apps/v1" "Pod"
        ⟨.empty, ()⟩ = (.error (.resourceNotFound "apps/v1" "Pod"), s) ∧
      s.cache.index = some index ∧
        IndexFrom ((Call.schema "apps/v1" "Pod").fetches (transportOf deployments fun _ => 0)
          oneCluster ⟨.empty, ()⟩) index) ∧
    ∃ s, getIndex (transportOf unserved fun _ => 0) oneCluster ⟨onePod, ()⟩ =
        (.error .noUsableApiDescription, s) ∧ s.cache = onePod := by
  have hnever : ∀ answer, NeverClears (transportOf answer fun _ => 0) oneCluster := fun _ _ _ => rfl
  refine ⟨hnever, ?_, ?_⟩
  · obtain ⟨s, hfailed, hkept⟩ : ∃ s, getSchema (transportOf deployments fun _ => 0) oneCluster
        "apps/v1" "Pod" ⟨.empty, ()⟩ = (.error (.resourceNotFound "apps/v1" "Pod"), s) ∧
          s.cache.index.isSome := ⟨_, rfl, rfl⟩
    obtain ⟨-, -, hsame | ⟨-, index, hadded, hfound⟩⟩ :=
      (cache_of_failure (hnever deployments) ⟨.empty, ()⟩).2 "apps/v1" "Pod" _ s hfailed
    · rw [hsame] at hkept
      cases hkept
    · exact ⟨s, index, hfailed, hadded, hfound⟩
  · have hfailed : getIndex (transportOf unserved fun _ => 0) oneCluster ⟨onePod, ()⟩ =
        (.error .noUsableApiDescription, ⟨onePod, ()⟩) := rfl
    exact ⟨_, hfailed, (cache_of_failure (hnever unserved) ⟨onePod, ()⟩).1 _ _ hfailed⟩

end ManifestForm.SchemaCache
