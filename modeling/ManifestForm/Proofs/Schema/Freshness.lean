import ManifestForm.Proofs.Schema.History

/-!
# What a cache keeps is newer than the last clear

A request during which clears happen leaves an empty cache, as long as they are
too few for the epoch to come around. A request without clears adds fetches to
the log, and what it stores can be derived from the log since the last clear.
-/

namespace ManifestForm.SchemaCache

variable {σ : Type} {t : Transport σ} {k : Kubeconfig} {s s₁ s' : Session (σ × List Event)}

def clears (log : List Event) : Nat := log.countP Event.isClear

/-- The events since the last clear. -/
def sinceClear (log : List Event) : List Event := log.takeWhile fun e => !e.isClear

theorem sinceClear_append {new log : List Event} (hnoneNew : clears new = 0) :
    sinceClear (new ++ log) = new ++ sinceClear log := by
  apply List.takeWhile_append_of_pos
  simpa [clears, List.countP_eq_zero] using hnoneNew

section Clears

/-- The number of clears between two sessions of a request, and what follows from there being any:
nothing is kept, unless there are so many that the epoch may come around. -/
structure Passes (n : Nat) (s s' : Session (σ × List Event)) : Prop where
  clears_eq : clears s'.log = clears s.log + n
  epoch_eq : s'.cache.epoch = s.cache.epoch + UInt64.ofNat n
  emptied : 0 < n → n < UInt64.size → s'.cache.index = none ∧ s'.cache.kinds = []

theorem passes_refl (s : Session (σ × List Event)) : Passes 0 s s where
  clears_eq := rfl
  epoch_eq := by simp
  emptied := by simp

theorem Passes.fetch {n : Nat} (hpasses : Passes n s s₁) {url : String}
    {outcome : Except TransportError Json} (hfetched : s₁.fetch t.recorded k url = (outcome, s')) :
    ∃ m, Passes (n + m) s s' := by
  obtain ⟨m, hentries, hcache⟩ := fetch_recorded hfetched
  refine ⟨m, ?_, ?_, ?_⟩
  · calc
      clears s'.log = m + clears s₁.log := by
        simp [hentries, clears, Event.isClear, List.countP_replicate]
      _ = clears s.log + (n + m) := by
        rw [hpasses.clears_eq]
        omega
  · rw [hcache, clearTimes_epoch, hpasses.epoch_eq, UInt64.ofNat_add, UInt64.add_assoc]
  · intro hsomeClear hfew
    rw [hcache]
    rcases clearTimes_eq_or m s₁.cache with ⟨hnoneNow, hsame⟩ | hnothing
    · rw [hsame]
      exact hpasses.emptied (by omega) (by omega)
    · exact hnothing

/-- Once there are clears the epoch differs, unless there are enough for it to come around. -/
theorem Passes.epoch_ne {n : Nat} (hpasses : Passes n s s') (hsomeClear : 0 < n)
    (hfew : n < UInt64.size) : s'.cache.epoch ≠ s.cache.epoch := by
  intro hsame
  have hzero : UInt64.ofNat n = 0 := by
    rw [hpasses.epoch_eq] at hsame
    simpa using hsame
  have hvalue := congrArg UInt64.toNat hzero
  rw [UInt64.toNat_ofNat_of_lt' hfew] at hvalue
  exact Nat.ne_of_gt hsomeClear hvalue

/-- What is stored for an epoch leaves a cache alone whose epoch is another one. -/
theorem Passes.store {n : Nat} (hpasses : Passes n s s') {f : SchemaCache → SchemaCache}
    (hkeeps : ∀ c, (f c).epoch = c.epoch) (hleaves : ∀ c, c.epoch ≠ s.cache.epoch → f c = c) :
    Passes n s (s'.mapCache f) where
  clears_eq := hpasses.clears_eq
  epoch_eq := (hkeeps s'.cache).trans hpasses.epoch_eq
  emptied := by
    intro hsomeClear hfew
    have hother := hleaves s'.cache (hpasses.epoch_ne hsomeClear hfew)
    simp only [Session.mapCache, hother]
    exact hpasses.emptied hsomeClear hfew

theorem IndexStep.passes {r : Except SchemaError Index} (hstep : IndexStep t.recorded k s r s') :
    ∃ n, Passes n s s' := by
  cases hstep with
  | kept hhit => exact ⟨0, passes_refl s⟩
  | noCluster hmiss hunbound => exact ⟨0, passes_refl s⟩
  | unanswered hmiss hbound hfetched =>
      obtain ⟨n, hpasses⟩ := (passes_refl s).fetch hfetched
      exact ⟨_, hpasses⟩
  | malformed hmiss hbound hfetched hdecoded =>
      obtain ⟨n, hpasses⟩ := (passes_refl s).fetch hfetched
      exact ⟨_, hpasses⟩
  | listed hmiss hbound hfetched hdecoded =>
      obtain ⟨n, hpasses⟩ := (passes_refl s).fetch hfetched
      exact ⟨_, hpasses.store (storeIndex_epoch _ _) fun _ => storeIndex_of_ne⟩

theorem SchemaStep.passes {apiVersion kind : String} {r : Except SchemaError Schema}
    (hstep : SchemaStep t.recorded k apiVersion kind s r s') : ∃ n, Passes n s s' := by
  cases hstep with
  | kept hhit => exact ⟨0, passes_refl s⟩
  | noIndex _ hasked => exact hasked.passes
  | notListed _ hasked hunlisted => exact hasked.passes
  | noCluster _ hasked hlisted hunbound => exact hasked.passes
  | unanswered _ hasked hlisted hbound hfetched =>
      obtain ⟨n, hpasses⟩ := hasked.passes
      obtain ⟨m, hpasses⟩ := hpasses.fetch hfetched
      exact ⟨_, hpasses⟩
  | undescribed _ hasked hlisted hbound hfetched hunknown =>
      obtain ⟨n, hpasses⟩ := hasked.passes
      obtain ⟨m, hpasses⟩ := hpasses.fetch hfetched
      exact ⟨_, hpasses⟩
  | described _ hasked hlisted hbound hfetched hknown =>
      obtain ⟨n, hpasses⟩ := hasked.passes
      obtain ⟨m, hpasses⟩ := hpasses.fetch hfetched
      exact ⟨_, hpasses.store (storeKind_epoch _ _ _) fun _ => storeKind_of_ne⟩

end Clears

section RecordedRuns

/-- A call of a recorded session, which writes down its clear. -/
def Call.record (t : Transport σ) (k : Kubeconfig) (call : Call)
    (s : Session (σ × List Event)) : Session (σ × List Event) :=
  match call with
  | .clear => s.clear.note .cleared
  | call => call.run t.recorded k s

/-- The recorded session after calls in their order, each under a kubeconfig of its own. -/
def recordCalls (t : Transport σ) (calls : List (Kubeconfig × Call))
    (s : Session (σ × List Event)) : Session (σ × List Event) :=
  calls.foldl (fun s (k, call) => call.record t k s) s

theorem mapTransport_record (t : Transport σ) (k : Kubeconfig) (call : Call)
    (s : Session (σ × List Event)) :
    (call.record t k s).mapTransport Prod.fst = call.run t k (s.mapTransport Prod.fst) := by
  rw [(imitates_recorded t).run k call s]
  cases call <;> rfl

/-- Without its log a recorded run is the run. -/
theorem mapTransport_recordCalls (t : Transport σ) (calls : List (Kubeconfig × Call))
    (s : Session (σ × List Event)) :
    (recordCalls t calls s).mapTransport Prod.fst = runAll t calls (s.mapTransport Prod.fst) := by
  induction calls generalizing s with
  | nil => rfl
  | cons call rest ih =>
      have hstep := mapTransport_record t call.1 call.2 s
      exact (ih _).trans (congrArg (runAll t rest) hstep)

/-- A request keeps what it can be derived from newer than the last clear. -/
theorem Grows.sinceClear {n : Nat} {new : List Event}
    (hgrows : Grows k (sinceClear s.log) s s' new) (hpasses : Passes n s s')
    (hfew : clears s'.log < UInt64.size) : Derived (SchemaCache.sinceClear s'.log) s'.cache := by
  have hcount := hpasses.clears_eq
  rcases Nat.eq_zero_or_pos n with rfl | hsomeClear
  · have hnoneNew : clears new = 0 := by
      rw [hgrows.log_eq, clears, List.countP_append] at hcount
      exact Nat.add_right_cancel (hcount.trans (Nat.zero_add _).symm)
    rw [hgrows.log_eq, sinceClear_append hnoneNew]
    exact hgrows.derived
  · obtain ⟨hindex, hkinds⟩ := hpasses.emptied hsomeClear (by omega)
    exact keeps_of_nothing hindex hkinds

theorem clears_le_record (call : Call) :
    clears s.log ≤ clears (call.record t k s).log := by
  cases call with
  | index =>
      obtain ⟨n, hpasses⟩ := (getIndex_step t.recorded k s).passes
      exact hpasses.clears_eq ▸ Nat.le_add_right _ n
  | schema apiVersion kind =>
      obtain ⟨n, hpasses⟩ := (getSchema_step t.recorded k apiVersion kind s).passes
      exact hpasses.clears_eq ▸ Nat.le_add_right _ n
  | clear => exact (List.sublist_cons_self _ _).countP_le

theorem clears_le_recordCalls (calls : List (Kubeconfig × Call)) :
    clears s.log ≤ clears (recordCalls t calls s).log := by
  induction calls generalizing s with
  | nil => exact Nat.le_refl _
  | cons call rest ih => exact Nat.le_trans (clears_le_record call.2) ih

theorem Derived.record (hderived : Derived (sinceClear s.log) s.cache) (call : Call)
    (hfew : clears (call.record t k s).log < UInt64.size) :
    Derived (sinceClear (call.record t k s).log) (call.record t k s).cache := by
  cases call with
  | index =>
      have hstep := getIndex_step t.recorded k s
      obtain ⟨new, hgrows, -⟩ := hderived.indexStep hstep
      obtain ⟨n, hpasses⟩ := hstep.passes
      exact hgrows.sinceClear hpasses hfew
  | schema apiVersion kind =>
      have hstep := getSchema_step t.recorded k apiVersion kind s
      obtain ⟨new, hgrows⟩ := hderived.schemaStep hstep
      obtain ⟨n, hpasses⟩ := hstep.passes
      exact hgrows.sinceClear hpasses hfew
  | clear => exact keeps_of_nothing rfl rfl

theorem Derived.recordCalls (hderived : Derived (sinceClear s.log) s.cache)
    (calls : List (Kubeconfig × Call))
    (hfew : clears (recordCalls t calls s).log < UInt64.size) :
    Derived (sinceClear (SchemaCache.recordCalls t calls s).log)
      (SchemaCache.recordCalls t calls s).cache := by
  induction calls generalizing s with
  | nil => exact hderived
  | cons call rest ih =>
      have hfewNow : clears (call.2.record t call.1 s).log < UInt64.size :=
        Nat.lt_of_le_of_lt (clears_le_recordCalls rest) hfew
      exact ih (hderived.record call.2 hfewNow) hfew

/-- A request for a schema during which clears happen stores no schema. -/
theorem SchemaStep.kinds_of_clears {apiVersion kind : String} {r : Except SchemaError Schema}
    (hstep : SchemaStep t.recorded k apiVersion kind s r s')
    (hsomeClear : clears s.log < clears s'.log) (hfew : clears s'.log < UInt64.size) :
    s'.cache.kinds = [] := by
  obtain ⟨n, hpasses⟩ := hstep.passes
  have hcount := hpasses.clears_eq
  exact (hpasses.emptied (by omega) (by omega)).2

/-- A recorded run is the run with a log beside it. While fewer than `UInt64.size` clears are in the
log, everything that is kept can be derived from the events since the last one, and a request for
a schema during which clears happen leaves no schemas. -/
theorem kept_since_last_clear (t : Transport σ) (calls : List (Kubeconfig × Call)) (x : σ) :
    (recordCalls t calls ⟨.empty, x, []⟩).mapTransport Prod.fst = runAll t calls ⟨.empty, x⟩ ∧
    (clears (recordCalls t calls ⟨.empty, x, []⟩).log < UInt64.size →
      Derived (sinceClear (recordCalls t calls ⟨.empty, x, []⟩).log)
        (recordCalls t calls ⟨.empty, x, []⟩).cache) ∧
    (∀ k apiVersion kind (s : Session (σ × List Event)),
      clears s.log < clears (getSchema t.recorded k apiVersion kind s).2.log →
      clears (getSchema t.recorded k apiVersion kind s).2.log < UInt64.size →
      (getSchema t.recorded k apiVersion kind s).2.cache.kinds = []) := by
  refine ⟨mapTransport_recordCalls t calls _, ?_, ?_⟩
  · intro hfew
    exact Derived.recordCalls (keeps_of_nothing rfl rfl) calls hfew
  · intro k apiVersion kind s
    exact (getSchema_step t.recorded k apiVersion kind s).kinds_of_clears

/-- A transport that has the cache cleared while it answers for a description. -/
def clearingTransport : Transport Unit :=
  transportOf deployments fun url => if url = "http://c/apps" then 1 else 0

/-- The clear during the fetch of a description leaves no schema, and the index that is kept in
the end has been fetched after it. -/
theorem kept_of_clearing :
    (recordCalls clearingTransport
        ([.schema "apps/v1" "Deployment", .index].map (oneCluster, ·)) ⟨.empty, (), []⟩).cache =
      ⟨1, some ⟨[("apis/apps/v1", "/apps")]⟩, []⟩ ∧
    Derived
      (sinceClear (recordCalls clearingTransport
        ([.schema "apps/v1" "Deployment", .index].map (oneCluster, ·)) ⟨.empty, (), []⟩).log)
      (recordCalls clearingTransport
        ([.schema "apps/v1" "Deployment", .index].map (oneCluster, ·)) ⟨.empty, (), []⟩).cache ∧
    (getSchema clearingTransport.recorded oneCluster "apps/v1" "Deployment"
      ⟨.empty, (), []⟩).2.cache.kinds = [] := by
  obtain ⟨-, hderived, hemptied⟩ := kept_since_last_clear clearingTransport
    ([.schema "apps/v1" "Deployment", .index].map (oneCluster, ·)) ()
  refine ⟨rfl, hderived ?_, hemptied oneCluster "apps/v1" "Deployment" _ ?_ ?_⟩
  · decide +kernel
  · decide +kernel
  · decide +kernel

end RecordedRuns

end ManifestForm.SchemaCache
