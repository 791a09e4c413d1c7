import ManifestForm.Proofs.Schema.Session

/-!
# What a kept schema stands for

With a transport that answers each URL in one way only, an empty cache answers
a pair of an API version and a kind by a function of the pair. A cache in use
answers as that function does on some pair with the same key. Keys of different
pairs may be the same text, since both parts may hold slashes, and then the
pair that has been resolved first since the last clear is the one that counts.
-/

namespace ManifestForm.SchemaCache

variable {σ : Type} {answer : String → Except TransportError Json} {k : Kubeconfig}
  {t : Transport σ}

/-- The outcome of a fetch depends on the URL alone. -/
def AnswersByUrl (t : Transport σ) (k : Kubeconfig)
    (answer : String → Except TransportError Json) : Prop :=
  ∀ url x, (t k url x).1.outcome = answer url

/-- The cache is never cleared during a fetch. -/
def NeverClears (t : Transport σ) (k : Kubeconfig) : Prop :=
  ∀ url x, (t k url x).1.clears = 0

/-- The index by the answers to URLs. -/
def resolveIndex (answer : String → Except TransportError Json) (k : Kubeconfig) :
    Except SchemaError Index :=
  match server? k with
  | none => .error .noActiveContext
  | some server =>
    match answer (server ++ indexPath) with
    | .error e => .error (.ofTransport e)
    | .ok body =>
      match Index.decode body with
      | .error _ => .error .noUsableApiDescription
      | .ok index => .ok index

/-- The schema of a pair by the answers to URLs. -/
def resolve (answer : String → Except TransportError Json) (k : Kubeconfig)
    (pair : String × String) : Except SchemaError Schema :=
  match resolveIndex answer k with
  | .error e => .error e
  | .ok index =>
    match index.url? pair.1 with
    | none => .error (.resourceNotFound pair.1 pair.2)
    | some url =>
      match server? k with
      | none => .error .noActiveContext
      | some server =>
        match answer (server ++ url) with
        | .error e => .error (.ofTransport e)
        | .ok body => describe pair.1 pair.2 body

/-- The pairs asked for since the last clear, after one more call. -/
def noteCall (asked : List (String × String)) : Call → List (String × String)
  | .index => asked
  | .schema apiVersion kind => asked ++ [(apiVersion, kind)]
  | .clear => []

/-- The pairs asked for since the last clear, in their order. -/
def askedSinceClear (calls : List Call) : List (String × String) := calls.foldl noteCall []

/-- The schema of the first of some pairs that has a key and resolves. -/
def firstSchema (answer : String → Except TransportError Json) (k : Kubeconfig)
    (asked : List (String × String)) (κ : String) : Option Schema :=
  asked.findSome? fun pair =>
    if key pair.1 pair.2 = κ then (resolve answer k pair).toOption else none

section Kept

/-- A pair that was asked for has a key, and resolves to a schema. -/
def Resolves (answer : String → Except TransportError Json) (k : Kubeconfig)
    (asked : List (String × String)) (κ : String) (schema : Schema) : Prop :=
  ∃ pair ∈ asked, key pair.1 pair.2 = κ ∧ resolve answer k pair = .ok schema

/-- A cache keeps what the answers to URLs give for pairs that were asked for. -/
def Agrees (answer : String → Except TransportError Json) (k : Kubeconfig)
    (asked : List (String × String)) (c : SchemaCache) : Prop :=
  Keeps (fun index => resolveIndex answer k = .ok index) (Resolves answer k asked) c

end Kept

section Agreement

variable {earlier : List (String × String)} {s s' : Session σ}

theorem Agrees.mono {c : SchemaCache} {more : List (String × String)} (hsub : earlier ⊆ more)
    (hagrees : Agrees answer k earlier c) : Agrees answer k more c :=
  Keeps.mono (fun _ hresolved => hresolved)
    (fun _ _ ⟨pair, hmem, hresolved⟩ => ⟨pair, hsub hmem, hresolved⟩) hagrees

theorem AnswersByUrl.of_fetch (hbyUrl : AnswersByUrl t k answer) {url : String}
    {outcome : Except TransportError Json} (hfetched : s.fetch t k url = (outcome, s')) :
    answer url = outcome :=
  (hbyUrl url s.transport).symm.trans (fetch_eq_iff.mp hfetched).1

theorem Agrees.fetch {url : String} {outcome : Except TransportError Json}
    (hagrees : Agrees answer k earlier s.cache) (hfetched : s.fetch t k url = (outcome, s')) :
    Agrees answer k earlier s'.cache := by
  obtain ⟨-, rfl⟩ := fetch_eq_iff.mp hfetched
  exact Keeps.clearTimes _ hagrees

/-- A request for the index is answered as by an empty cache. -/
theorem Agrees.indexStep (hbyUrl : AnswersByUrl t k answer)
    (hagrees : Agrees answer k earlier s.cache) {r : Except SchemaError Index}
    (hstep : IndexStep t k s r s') :
    r = resolveIndex answer k ∧ Agrees answer k earlier s'.cache := by
  cases hstep with
  | kept hhit => exact ⟨(Keeps.index hagrees _ hhit).symm, hagrees⟩
  | noCluster hmiss hunbound => exact ⟨by simp only [resolveIndex, hunbound], hagrees⟩
  | unanswered hmiss hbound hfetched =>
      exact ⟨by simp only [resolveIndex, hbound, hbyUrl.of_fetch hfetched], hagrees.fetch hfetched⟩
  | malformed hmiss hbound hfetched hdecoded =>
      exact ⟨by simp only [resolveIndex, hbound, hbyUrl.of_fetch hfetched, hdecoded],
        hagrees.fetch hfetched⟩
  | @listed _ _ index _ hmiss hbound hfetched hdecoded =>
      have hresolved : resolveIndex answer k = .ok index := by
        simp only [resolveIndex, hbound, hbyUrl.of_fetch hfetched, hdecoded]
      exact ⟨hresolved.symm, Keeps.storeIndex hresolved (hagrees.fetch hfetched)⟩

/-- A request for a schema that is not kept is answered as by an empty cache. -/
theorem Agrees.answer_of_miss (hbyUrl : AnswersByUrl t k answer)
    (hagrees : Agrees answer k earlier s.cache) {apiVersion kind : String}
    (hmiss : s.cache.kinds.lookup (key apiVersion kind) = none)
    {r : Except SchemaError Schema} (hstep : SchemaStep t k apiVersion kind s r s') :
    r = resolve answer k (apiVersion, kind) := by
  cases hstep with
  | kept hhit =>
      rw [hmiss] at hhit
      cases hhit
  | noIndex _ hasked =>
      have hindex := (hagrees.indexStep hbyUrl hasked).1
      simp only [resolve, ← hindex]
  | notListed _ hasked hunlisted =>
      have hindex := (hagrees.indexStep hbyUrl hasked).1
      simp only [resolve, ← hindex, hunlisted]
  | noCluster _ hasked hlisted hunbound =>
      have hindex := (hagrees.indexStep hbyUrl hasked).1
      simp only [resolve, ← hindex, hlisted, hunbound]
  | unanswered _ hasked hlisted hbound hfetched =>
      have hindex := (hagrees.indexStep hbyUrl hasked).1
      simp only [resolve, ← hindex, hlisted, hbound, hbyUrl.of_fetch hfetched]
  | undescribed _ hasked hlisted hbound hfetched hunknown =>
      have hindex := (hagrees.indexStep hbyUrl hasked).1
      simp only [resolve, ← hindex, hlisted, hbound, hbyUrl.of_fetch hfetched, hunknown]
  | described _ hasked hlisted hbound hfetched hknown =>
      have hindex := (hagrees.indexStep hbyUrl hasked).1
      simp only [resolve, ← hindex, hlisted, hbound, hbyUrl.of_fetch hfetched, hknown]

/-- A request for a schema adds its pair to those that the cache agrees with. -/
theorem Agrees.schemaStep (hbyUrl : AnswersByUrl t k answer)
    (hagrees : Agrees answer k earlier s.cache) {apiVersion kind : String}
    {r : Except SchemaError Schema} (hstep : SchemaStep t k apiVersion kind s r s') :
    Agrees answer k (earlier ++ [(apiVersion, kind)]) s'.cache := by
  have hagrees := hagrees.mono (List.subset_append_left earlier [(apiVersion, kind)])
  have hanswered := fun hmiss => hagrees.answer_of_miss hbyUrl hmiss hstep
  cases hstep with
  | kept hhit => exact hagrees
  | noIndex _ hasked => exact (hagrees.indexStep hbyUrl hasked).2
  | notListed _ hasked hunlisted => exact (hagrees.indexStep hbyUrl hasked).2
  | noCluster _ hasked hlisted hunbound => exact (hagrees.indexStep hbyUrl hasked).2
  | unanswered _ hasked hlisted hbound hfetched =>
      exact (hagrees.indexStep hbyUrl hasked).2.fetch hfetched
  | undescribed _ hasked hlisted hbound hfetched hunknown =>
      exact (hagrees.indexStep hbyUrl hasked).2.fetch hfetched
  | described hmiss hasked hlisted hbound hfetched hknown =>
      have hmem := List.mem_append_right earlier (List.mem_singleton_self (apiVersion, kind))
      exact Keeps.storeKind ⟨_, hmem, rfl, (hanswered hmiss).symm⟩
        ((hagrees.indexStep hbyUrl hasked).2.fetch hfetched)

theorem Agrees.run (hbyUrl : AnswersByUrl t k answer) (hagrees : Agrees answer k earlier s.cache)
    (call : Call) : Agrees answer k (noteCall earlier call) (call.run t k s).cache := by
  cases call with
  | index => exact (hagrees.indexStep hbyUrl (getIndex_step t k s)).2
  | schema apiVersion kind =>
      exact hagrees.schemaStep hbyUrl (getSchema_step t k apiVersion kind s)
  | clear => exact keeps_of_nothing rfl rfl

theorem Agrees.runAll (hbyUrl : AnswersByUrl t k answer)
    (hagrees : Agrees answer k earlier s.cache) (calls : List Call) :
    Agrees answer k (calls.foldl noteCall earlier) (runAll t (calls.map (k, ·)) s).cache := by
  induction calls generalizing earlier s with
  | nil => exact hagrees
  | cons call rest ih => exact ih (hagrees.run hbyUrl call)

section Undisturbed

theorem NeverClears.cache (hnever : NeverClears t k) {url : String}
    {outcome : Except TransportError Json} (hfetched : s.fetch t k url = (outcome, s')) :
    s'.cache = s.cache := by
  obtain ⟨-, rfl⟩ := fetch_eq_iff.mp hfetched
  rw [hnever]
  rfl

/-- A request for the index stays in its epoch and leaves the schemas. -/
theorem NeverClears.indexStep (hnever : NeverClears t k) {r : Except SchemaError Index}
    (hstep : IndexStep t k s r s') :
    s'.cache.epoch = s.cache.epoch ∧ s'.cache.kinds = s.cache.kinds := by
  cases hstep with
  | kept hhit => exact ⟨rfl, rfl⟩
  | noCluster hmiss hunbound => exact ⟨rfl, rfl⟩
  | unanswered hmiss hbound hfetched => simp only [hnever.cache hfetched, and_self]
  | malformed hmiss hbound hfetched hdecoded => simp only [hnever.cache hfetched, and_self]
  | listed hmiss hbound hfetched hdecoded =>
      simp only [Session.mapCache, SchemaCache.storeIndex, hnever.cache hfetched, if_true, and_self]

/-- A request for a schema that is not kept stores what it answers. -/
theorem NeverClears.schemaStep (hnever : NeverClears t k) {apiVersion kind : String}
    (hmiss : s.cache.kinds.lookup (key apiVersion kind) = none)
    {r : Except SchemaError Schema} (hstep : SchemaStep t k apiVersion kind s r s') :
    s'.cache.kinds =
      r.toOption.toList.map (fun schema => (key apiVersion kind, schema)) ++ s.cache.kinds := by
  cases hstep with
  | kept hhit =>
      rw [hmiss] at hhit
      cases hhit
  | noIndex _ hasked => exact (hnever.indexStep hasked).2
  | notListed _ hasked hunlisted => exact (hnever.indexStep hasked).2
  | noCluster _ hasked hlisted hunbound => exact (hnever.indexStep hasked).2
  | unanswered _ hasked hlisted hbound hfetched =>
      rw [hnever.cache hfetched]
      exact (hnever.indexStep hasked).2
  | undescribed _ hasked hlisted hbound hfetched hunknown =>
      rw [hnever.cache hfetched]
      exact (hnever.indexStep hasked).2
  | described _ hasked hlisted hbound hfetched hknown =>
      obtain ⟨hepoch, hkinds⟩ := hnever.indexStep hasked
      simp only [Session.mapCache, SchemaCache.storeKind, hnever.cache hfetched, hepoch, if_true,
        hkinds]
      rfl

/-- A cache keeps the first schema of every key. -/
def KeepsFirst (answer : String → Except TransportError Json) (k : Kubeconfig)
    (asked : List (String × String)) (c : SchemaCache) : Prop :=
  ∀ κ, c.kinds.lookup κ = firstSchema answer k asked κ

theorem firstSchema_append_singleton (pair : String × String) (κ : String) :
    firstSchema answer k (earlier ++ [pair]) κ =
      (firstSchema answer k earlier κ).or
        (if key pair.1 pair.2 = κ then (resolve answer k pair).toOption else none) := by
  simp only [firstSchema, List.findSome?_append, List.findSome?_singleton]

theorem KeepsFirst.schemaStep (hbyUrl : AnswersByUrl t k answer) (hnever : NeverClears t k)
    (hagrees : Agrees answer k earlier s.cache) (hfirst : KeepsFirst answer k earlier s.cache)
    {apiVersion kind : String} {r : Except SchemaError Schema}
    (hstep : SchemaStep t k apiVersion kind s r s') :
    KeepsFirst answer k (earlier ++ [(apiVersion, kind)]) s'.cache := by
  intro κ
  rw [firstSchema_append_singleton, ← hfirst κ]
  cases hhit : s.cache.kinds.lookup (key apiVersion kind) with
  | some schema =>
      obtain rfl : s' = s := by
        have hended := hstep.eq
        rw [(SchemaStep.kept hhit).eq] at hended
        exact (Prod.mk.inj hended).2.symm
      by_cases hsame : key apiVersion kind = κ
      · rw [← hsame, hhit, Option.some_or]
      · rw [if_neg hsame, Option.or_none]
  | none =>
      rw [hnever.schemaStep hhit hstep, hagrees.answer_of_miss hbyUrl hhit hstep]
      by_cases hsame : key apiVersion kind = κ
      · subst hsame
        rw [if_pos rfl, hhit, Option.none_or]
        cases (resolve answer k (apiVersion, kind)).toOption with
        | none => exact hhit
        | some schema => exact List.lookup_cons_self
      · rw [if_neg hsame, Option.or_none]
        cases (resolve answer k (apiVersion, kind)).toOption with
        | none => rfl
        | some schema =>
            have hother : (κ == key apiVersion kind) = false := by
              simpa using fun h => hsame h.symm
            simp [List.lookup_cons, hother]

theorem KeepsFirst.run (hbyUrl : AnswersByUrl t k answer) (hnever : NeverClears t k)
    (hagrees : Agrees answer k earlier s.cache) (hfirst : KeepsFirst answer k earlier s.cache)
    (call : Call) : KeepsFirst answer k (noteCall earlier call) (call.run t k s).cache := by
  cases call with
  | index =>
      have hkinds := (hnever.indexStep (getIndex_step t k s)).2
      exact fun κ => (congrArg (List.lookup κ) hkinds).trans (hfirst κ)
  | schema apiVersion kind =>
      exact hfirst.schemaStep hbyUrl hnever hagrees (getSchema_step t k apiVersion kind s)
  | clear => exact fun κ => rfl

theorem KeepsFirst.runAll (hbyUrl : AnswersByUrl t k answer) (hnever : NeverClears t k)
    (hagrees : Agrees answer k earlier s.cache) (hfirst : KeepsFirst answer k earlier s.cache)
    (calls : List Call) :
    KeepsFirst answer k (calls.foldl noteCall earlier) (runAll t (calls.map (k, ·)) s).cache := by
  induction calls generalizing earlier s with
  | nil => exact hfirst
  | cons call rest ih =>
      exact ih (hagrees.run hbyUrl call) (hfirst.run hbyUrl hnever hagrees call)

end Undisturbed

end Agreement

section InUse

theorem agrees_empty (x : σ) : Agrees answer k [] (Session.mk SchemaCache.empty x).cache :=
  keeps_of_nothing rfl rfl

/-- An empty cache answers by the pair alone. -/
theorem getSchema_empty (hbyUrl : AnswersByUrl t k answer) (apiVersion kind : String) (x : σ) :
    (getSchema t k apiVersion kind ⟨.empty, x⟩).1 = resolve answer k (apiVersion, kind) :=
  (agrees_empty x).answer_of_miss hbyUrl rfl (getSchema_step t k apiVersion kind _)

/-- A pair that shares its key with no other one asked for since the last clear has the answer of
an empty cache. -/
theorem getSchema_of_alone (hbyUrl : AnswersByUrl t k answer) (calls : List Call) (x : σ)
    {apiVersion kind : String}
    (halone : ∀ pair ∈ askedSinceClear calls,
      key pair.1 pair.2 = key apiVersion kind → pair = (apiVersion, kind)) :
    (getSchema t k apiVersion kind (runAll t (calls.map (k, ·)) ⟨.empty, x⟩)).1 =
      resolve answer k (apiVersion, kind) := by
  have hreached := (agrees_empty x).runAll hbyUrl calls
  have hstep := getSchema_step t k apiVersion kind (runAll t (calls.map (k, ·)) ⟨.empty, x⟩)
  cases hhit : (runAll t (calls.map (k, ·)) ⟨.empty, x⟩).cache.kinds.lookup
      (key apiVersion kind) with
  | none => exact hreached.answer_of_miss hbyUrl hhit hstep
  | some schema =>
      obtain ⟨pair, hmem, hsame, hresolved⟩ := Keeps.of_lookup hreached hhit
      rw [(SchemaStep.kept hhit).eq, ← halone pair hmem hsame, hresolved]

/-- The first schema of a key stands for all pairs that have the key. -/
theorem getSchema_of_first (hbyUrl : AnswersByUrl t k answer) (hnever : NeverClears t k)
    (calls : List Call) (x : σ) (apiVersion kind : String) :
    (getSchema t k apiVersion kind (runAll t (calls.map (k, ·)) ⟨.empty, x⟩)).1 =
      match firstSchema answer k (askedSinceClear calls) (key apiVersion kind) with
      | some schema => .ok schema
      | none => resolve answer k (apiVersion, kind) := by
  have hreached := (agrees_empty x).runAll hbyUrl calls
  have hstep := getSchema_step t k apiVersion kind (runAll t (calls.map (k, ·)) ⟨.empty, x⟩)
  have hfirst : KeepsFirst answer k [] (Session.mk SchemaCache.empty x).cache := fun κ => rfl
  rw [askedSinceClear, ← hfirst.runAll hbyUrl hnever (agrees_empty x) calls]
  cases hhit : (runAll t (calls.map (k, ·)) ⟨.empty, x⟩).cache.kinds.lookup
      (key apiVersion kind) with
  | none => exact hreached.answer_of_miss hbyUrl hhit hstep
  | some schema => rw [(SchemaStep.kept hhit).eq]

/-- An empty cache answers by the pair alone. A cache in use answers as an empty one if no other
pair with the same key has been asked for since the last clear. If nothing clears it during a
fetch, it answers with the first schema of the key, or as an empty one if there is none. -/
theorem getSchema_after_calls (hbyUrl : AnswersByUrl t k answer) :
    (∀ apiVersion kind x,
      (getSchema t k apiVersion kind ⟨.empty, x⟩).1 = resolve answer k (apiVersion, kind)) ∧
    (∀ calls x apiVersion kind,
      (∀ pair ∈ askedSinceClear calls,
        key pair.1 pair.2 = key apiVersion kind → pair = (apiVersion, kind)) →
      (getSchema t k apiVersion kind (runAll t (calls.map (k, ·)) ⟨.empty, x⟩)).1 =
        resolve answer k (apiVersion, kind)) ∧
    (NeverClears t k → ∀ calls x apiVersion kind,
      (getSchema t k apiVersion kind (runAll t (calls.map (k, ·)) ⟨.empty, x⟩)).1 =
        match firstSchema answer k (askedSinceClear calls) (key apiVersion kind) with
        | some schema => .ok schema
        | none => resolve answer k (apiVersion, kind)) := by
  refine ⟨getSchema_empty hbyUrl, ?_, getSchema_of_first hbyUrl⟩
  intro calls x apiVersion kind halone
  exact getSchema_of_alone hbyUrl calls x halone

/-- After a deployment of `apps/v1`, a kind `v1/Deployment` of the API version `apps` has its
schema, although an empty cache finds no resource for it. -/
theorem shared_key_of_deployments :
    (getSchema (transportOf deployments fun _ => 0) oneCluster "apps" "v1/Deployment"
        ⟨.empty, ()⟩).1 =
      .error (.resourceNotFound "apps" "v1/Deployment") ∧
    (getSchema (transportOf deployments fun _ => 0) oneCluster "apps/v1" "Deployment"
        (runAll (transportOf deployments fun _ => 0)
          ([.schema "apps/v1" "Deployment", .index].map (oneCluster, ·)) ⟨.empty, ()⟩)).1 =
      .ok (.inline ⟨some "object", none, none, none, none, none, none⟩) ∧
    (getSchema (transportOf deployments fun _ => 0) oneCluster "apps" "v1/Deployment"
        (runAll (transportOf deployments fun _ => 0)
          ([.schema "apps/v1" "Deployment"].map (oneCluster, ·)) ⟨.empty, ()⟩)).1 =
      .ok (.inline ⟨some "object", none, none, none, none, none, none⟩) := by
  have hbyUrl : AnswersByUrl (transportOf deployments fun _ => 0) oneCluster deployments :=
    fun _ _ => rfl
  have hnever : NeverClears (transportOf deployments fun _ => 0) oneCluster := fun _ _ => rfl
  obtain ⟨hfresh, halone, hfirst⟩ := getSchema_after_calls hbyUrl
  refine ⟨(hfresh "apps" "v1/Deployment" ()).trans rfl, ?_, ?_⟩
  · refine (halone [.schema "apps/v1" "Deployment", .index] () "apps/v1" "Deployment" ?_).trans rfl
    exact fun pair hmem _ => List.mem_singleton.mp hmem
  · exact (hfirst hnever [.schema "apps/v1" "Deployment"] () "apps" "v1/Deployment").trans rfl

end InUse

section WithoutSlashes

theorem takeWhile_reverse_of_last {l : List Char} (kind : List Char) (hplain : '/' ∉ kind) :
    (l ++ '/' :: kind).reverse.takeWhile (· ≠ '/') = kind.reverse := by
  have hall : ∀ c ∈ kind.reverse, decide (c ≠ '/') = true := by
    intro c hmem
    exact decide_eq_true fun hsame => hplain (hsame ▸ List.mem_reverse.mp hmem)
  rw [List.reverse_append, List.reverse_cons, List.append_assoc,
    List.takeWhile_append_of_pos hall]
  simp

/-- Kinds without slashes can be told from the API version in a key. -/
theorem key_inj_of_no_slash {a b kind kind' : String} (hplain : '/' ∉ kind.toList)
    (hplain' : '/' ∉ kind'.toList) (hsame : key a kind = key b kind') : a = b ∧ kind = kind' := by
  have hchars : a.toList ++ '/' :: kind.toList = b.toList ++ '/' :: kind'.toList := by
    simpa [key] using congrArg String.toList hsame
  have hkinds : kind.toList = kind'.toList := by
    rw [← List.reverse_inj, ← takeWhile_reverse_of_last (l := a.toList) _ hplain, hchars,
      takeWhile_reverse_of_last _ hplain']
  rw [hkinds, List.append_cancel_right_eq] at hchars
  exact ⟨String.toList_inj.mp hchars, String.toList_inj.mp hkinds⟩

/-- Among kinds without slashes a cache in use answers as an empty one. -/
theorem getSchema_of_no_slash (hbyUrl : AnswersByUrl t k answer) (calls : List Call) (x y : σ)
    {apiVersion kind : String} (hplain : '/' ∉ kind.toList)
    (hasked : ∀ pair ∈ askedSinceClear calls, '/' ∉ pair.2.toList) :
    (getSchema t k apiVersion kind (runAll t (calls.map (k, ·)) ⟨.empty, x⟩)).1 =
      (getSchema t k apiVersion kind ⟨.empty, y⟩).1 := by
  rw [getSchema_empty hbyUrl]
  apply getSchema_of_alone hbyUrl
  intro pair hmem hsame
  obtain ⟨hversions, hkinds⟩ := key_inj_of_no_slash (hasked pair hmem) hplain hsame
  exact Prod.ext hversions hkinds

end WithoutSlashes

end ManifestForm.SchemaCache
