import ManifestForm.Proofs.Schema.Freshness
import ManifestForm.Proofs.Schema.Transparency
import Mathlib.Data.List.Pairwise

/-!
# How often a cache fetches

A run is told as a list of turns, each with the fetches that the call made,
first for the index and then for a description. A transport that never clears
the cache leaves what is kept in place until the next clear of the run. Until
then a kept index spares its fetch, and a kept schema spares both.
-/

namespace ManifestForm

/-- An answer that an index can be decoded from. -/
def Event.isUsableIndex : Event → Bool
  | .fetched _ _ (.ok body) => (Index.decode body).toOption.isSome
  | _ => false

namespace SchemaCache

variable {σ : Type} {t : Transport σ} {k : Kubeconfig}

section Turns

/-- The same session with an empty log beside it. -/
def Session.recording (s : Session σ) : Session (σ × List Event) := ⟨s.cache, s.transport, []⟩

/-- The fetches of a call, in their order. -/
def Call.fetches (t : Transport σ) (k : Kubeconfig) (call : Call) (s : Session σ) : List Event :=
  (call.run t.recorded k s.recording).log.reverse

/-- The fetches of a call that are made for the index, which are those of a request for it. Without
a schema in the cache a request for a schema makes one for the index. -/
def Call.indexFetches (t : Transport σ) (k : Kubeconfig) (call : Call) (s : Session σ) :
    List Event :=
  match call with
  | .index => Call.index.fetches t k s
  | .schema apiVersion kind =>
    if (s.cache.kinds.lookup (key apiVersion kind)).isSome then [] else Call.index.fetches t k s
  | .clear => []

/-- A call in a run, with its fetches and the schema that it gave. -/
structure Turn where
  kubeconfig : Kubeconfig
  call : Call
  fetches : List Event
  indexFetches : List Event
  schema? : Option Schema

namespace Turn

/-- The fetches behind those for the index. -/
def documentFetches (turn : Turn) : List Event := turn.fetches.drop turn.indexFetches.length

/-- A request for a schema that fetched something and succeeded. -/
def obtains (apiVersion kind : String) (turn : Turn) : Bool :=
  turn.call = .schema apiVersion kind && !turn.fetches.isEmpty && turn.schema?.isSome

theorem obtains_iff {apiVersion kind : String} {turn : Turn} :
    turn.obtains apiVersion kind ↔
      turn.call = .schema apiVersion kind ∧ turn.fetches ≠ [] ∧ turn.schema?.isSome := by
  simp [obtains, and_assoc]

end Turn

/-- The turn that a call takes. -/
def Call.turn (t : Transport σ) (k : Kubeconfig) (call : Call) (s : Session σ) : Turn where
  kubeconfig := k
  call := call
  fetches := call.fetches t k s
  indexFetches := call.indexFetches t k s
  schema? :=
    match call with
    | .schema apiVersion kind => (getSchema t k apiVersion kind s).1.toOption
    | _ => none

/-- The turns of a run. -/
def turns (t : Transport σ) : List (Kubeconfig × Call) → Session σ → List Turn
  | [], _ => []
  | (k, call) :: rest, s => call.turn t k s :: turns t rest (call.run t k s)

/-- No fetch, or a single one of a path on the server of a kubeconfig. -/
def FetchesAtMost (k : Kubeconfig) (path : String) (events : List Event) : Prop :=
  events = [] ∨ ∃ server outcome, server? k = some server ∧
    events = [.fetched k (server ++ path) outcome]

/-- At most one fetch for the index and then at most one of a description. -/
structure Turn.IsFrugal (turn : Turn) : Prop where
  index_first : turn.indexFetches <+: turn.fetches
  index : FetchesAtMost turn.kubeconfig indexPath turn.indexFetches
  document : ∃ path, FetchesAtMost turn.kubeconfig path turn.documentFetches

/-- Turns that fetch nothing twice. One usable index serves all later turns, and one schema all
later requests for its pair. -/
structure FetchOnce (stretch : List Turn) : Prop where
  index_once : (stretch.flatMap Turn.indexFetches).countP Event.isUsableIndex ≤ 1
  index_kept : stretch.Pairwise fun a b =>
    (∃ e ∈ a.indexFetches, e.isUsableIndex) → b.indexFetches = []
  schema_once : ∀ apiVersion kind, stretch.countP (Turn.obtains apiVersion kind) ≤ 1
  schema_kept : ∀ apiVersion kind schema, stretch.Pairwise fun a b =>
    a.obtains apiVersion kind → a.schema? = some schema →
      b.call = .schema apiVersion kind → b.fetches = [] ∧ b.schema? = some schema

end Turns

theorem FetchesAtMost.pairwise {path : String} {events : List Event}
    (hfew : FetchesAtMost k path events) (r : Event → Event → Prop) : events.Pairwise r := by
  rcases hfew with rfl | ⟨server, outcome, -, rfl⟩
  · exact List.Pairwise.nil
  · exact List.pairwise_singleton r _

theorem fetchesAtMost_singleton {server path : String} (hbound : server? k = some server)
    (outcome : Except TransportError Json) :
    FetchesAtMost k path [.fetched k (server ++ path) outcome] :=
  .inr ⟨server, outcome, hbound, rfl⟩

/-- One fetch reads the same in both directions. -/
theorem FetchesAtMost.reverse_eq {path : String} {events : List Event}
    (hfew : FetchesAtMost k path events) : events.reverse = events := by
  rcases hfew with rfl | ⟨server, outcome, -, rfl⟩ <;> rfl

theorem NeverClears.recorded (hnever : NeverClears t k) : NeverClears t.recorded k :=
  fun url x => hnever url x.1

section Steps

variable {s s' : Session (σ × List Event)}

@[simp]
theorem log_mapCache (f : SchemaCache → SchemaCache) (s : Session (σ × List Event)) :
    (s.mapCache f).log = s.log := rfl

theorem NeverClears.log_of_fetch (hnever : NeverClears t k) {url : String}
    {outcome : Except TransportError Json} (hfetched : s.fetch t.recorded k url = (outcome, s')) :
    s'.log = .fetched k url outcome :: s.log := by
  obtain ⟨rfl, rfl⟩ := fetch_eq_iff.mp hfetched
  have hnoneNow : (t k url s.transport.1).1.clears = 0 := hnever url s.transport.1
  simp only [Session.log, Transport.recorded, hnoneNow, List.replicate_zero, List.nil_append]

/-- A request for the index adds at most one fetch, and keeps the index if the answer is usable. -/
theorem NeverClears.log_of_indexStep (hnever : NeverClears t k) {r : Except SchemaError Index}
    (hstep : IndexStep t.recorded k s r s') :
    ∃ new, s'.log = new ++ s.log ∧ FetchesAtMost k indexPath new ∧
      ∀ e ∈ new, e.isUsableIndex → s'.cache.index.isSome := by
  cases hstep with
  | kept hhit => exact ⟨[], rfl, .inl rfl, by simp⟩
  | noCluster hmiss hunbound => exact ⟨[], rfl, .inl rfl, by simp⟩
  | unanswered hmiss hbound hfetched =>
      refine ⟨_, hnever.log_of_fetch hfetched, fetchesAtMost_singleton hbound _, ?_⟩
      simp [Event.isUsableIndex]
  | malformed hmiss hbound hfetched hdecoded =>
      refine ⟨_, hnever.log_of_fetch hfetched, fetchesAtMost_singleton hbound _, ?_⟩
      simp [Event.isUsableIndex, hdecoded, Except.toOption]
  | @listed server body index s₁ hmiss hbound hfetched hdecoded =>
      refine ⟨[.fetched k (server ++ indexPath) (.ok body)], ?_,
        fetchesAtMost_singleton hbound _, ?_⟩
      · rw [log_mapCache]
        exact hnever.log_of_fetch hfetched
      intro e hmem husable
      simp [Session.mapCache, SchemaCache.storeIndex, hnever.recorded.cache hfetched]

/-- A fetch behind a request for the index. -/
theorem NeverClears.log_of_asked (hnever : NeverClears t k) {r : Except SchemaError Index}
    {s₁ s₂ : Session (σ × List Event)} (hasked : IndexStep t.recorded k s r s₁)
    {server path : String} (hbound : server? k = some server)
    {outcome : Except TransportError Json}
    (hfetched : s₁.fetch t.recorded k (server ++ path) = (outcome, s₂)) :
    ∃ path document, FetchesAtMost k path document ∧
      s₂.log = document ++ (getIndex t.recorded k s).2.log := by
  refine ⟨path, [.fetched k (server ++ path) outcome], fetchesAtMost_singleton hbound outcome, ?_⟩
  rw [hasked.eq]
  exact hnever.log_of_fetch hfetched

/-- Without a schema in the cache, a request for one adds at most one fetch to those that a request
for the index adds. -/
theorem NeverClears.log_of_schemaStep (hnever : NeverClears t k) {apiVersion kind : String}
    (hmiss : s.cache.kinds.lookup (key apiVersion kind) = none) {r : Except SchemaError Schema}
    (hstep : SchemaStep t.recorded k apiVersion kind s r s') :
    ∃ path document, FetchesAtMost k path document ∧
      s'.log = document ++ (getIndex t.recorded k s).2.log := by
  cases hstep with
  | kept hhit =>
      rw [hmiss] at hhit
      cases hhit
  | noIndex _ hasked => exact ⟨"", [], .inl rfl, by rw [hasked.eq]; rfl⟩
  | notListed _ hasked hunlisted => exact ⟨"", [], .inl rfl, by rw [hasked.eq]; rfl⟩
  | noCluster _ hasked hlisted hunbound => exact ⟨"", [], .inl rfl, by rw [hasked.eq]; rfl⟩
  | unanswered _ hasked hlisted hbound hfetched => exact hnever.log_of_asked hasked hbound hfetched
  | undescribed _ hasked hlisted hbound hfetched hunknown =>
      exact hnever.log_of_asked hasked hbound hfetched
  | described _ hasked hlisted hbound hfetched hknown =>
      rw [log_mapCache]
      exact hnever.log_of_asked hasked hbound hfetched

end Steps

section Calls

variable {s s' : Session σ}

/-- A call does the same to the cache with a log beside it. -/
theorem cache_run_recording (t : Transport σ) (k : Kubeconfig) (call : Call) (s : Session σ) :
    (call.run t.recorded k s.recording).cache = (call.run t k s).cache :=
  (congrArg Session.cache ((imitates_recorded t).run k call s.recording)).symm

/-- A request for the index leaves a kept one. -/
theorem NeverClears.index_of_indexStep (hnever : NeverClears t k) {r : Except SchemaError Index}
    (hstep : IndexStep t k s r s') (hkept : s.cache.index.isSome) : s'.cache.index.isSome := by
  cases hstep with
  | kept hhit => exact hkept
  | noCluster hmiss hunbound => exact hkept
  | unanswered hmiss hbound hfetched => rwa [hnever.cache hfetched]
  | malformed hmiss hbound hfetched hdecoded => rwa [hnever.cache hfetched]
  | listed hmiss hbound hfetched hdecoded =>
      simp [Session.mapCache, SchemaCache.storeIndex, hnever.cache hfetched]

theorem storeKind_index (epoch : UInt64) (κ : String) (schema : Schema) (c : SchemaCache) :
    (c.storeKind epoch κ schema).index = c.index := by
  unfold storeKind
  split <;> rfl

/-- A request for a schema leaves the index of the request for the index in it. -/
theorem NeverClears.index_of_schemaStep (hnever : NeverClears t k) {apiVersion kind : String}
    (hmiss : s.cache.kinds.lookup (key apiVersion kind) = none) {r : Except SchemaError Schema}
    (hstep : SchemaStep t k apiVersion kind s r s') :
    s'.cache.index = (getIndex t k s).2.cache.index := by
  cases hstep with
  | kept hhit =>
      rw [hmiss] at hhit
      cases hhit
  | noIndex _ hasked => rw [hasked.eq]
  | notListed _ hasked hunlisted => rw [hasked.eq]
  | noCluster _ hasked hlisted hunbound => rw [hasked.eq]
  | unanswered _ hasked hlisted hbound hfetched => rw [hasked.eq, hnever.cache hfetched]
  | undescribed _ hasked hlisted hbound hfetched hunknown => rw [hasked.eq, hnever.cache hfetched]
  | described _ hasked hlisted hbound hfetched hknown =>
      rw [hasked.eq]
      exact (storeKind_index _ _ _ _).trans (congrArg SchemaCache.index (hnever.cache hfetched))

/-- A kept schema is handed out, and nothing else happens. -/
theorem getSchema_of_hit {apiVersion kind : String} {schema : Schema}
    (hhit : s.cache.kinds.lookup (key apiVersion kind) = some schema) :
    getSchema t k apiVersion kind s = (.ok schema, s) :=
  (SchemaStep.kept hhit).eq

theorem NeverClears.index_of_run (hnever : NeverClears t k) {call : Call} (hstays : call ≠ .clear)
    (hkept : s.cache.index.isSome) : (call.run t k s).cache.index.isSome := by
  cases call with
  | index => exact hnever.index_of_indexStep (getIndex_step t k s) hkept
  | schema apiVersion kind =>
      cases hhit : s.cache.kinds.lookup (key apiVersion kind) with
      | some schema =>
          simp only [Call.run, getSchema_of_hit hhit]
          exact hkept
      | none =>
          rw [Call.run, hnever.index_of_schemaStep hhit (getSchema_step t k apiVersion kind s)]
          exact hnever.index_of_indexStep (getIndex_step t k s) hkept
  | clear => exact absurd rfl hstays

/-- With a kept index nothing is fetched for it. -/
theorem indexFetches_of_kept (call : Call) (hkept : s.cache.index.isSome) :
    call.indexFetches t k s = [] := by
  obtain ⟨index, hhit⟩ := Option.isSome_iff_exists.mp hkept
  have hhitRecorded : s.recording.cache.index = some index := hhit
  have hnoneAsked : Call.index.fetches t k s = [] := by
    simp only [Call.fetches, Call.run, (IndexStep.kept hhitRecorded).eq]
    rfl
  cases call with
  | index => exact hnoneAsked
  | schema apiVersion kind =>
      rw [Call.indexFetches, hnoneAsked]
      exact ite_self _
  | clear => rfl

/-- The fetches of a request for the index are one at most, and a usable answer to it is kept. -/
theorem NeverClears.fetches_index (hnever : NeverClears t k) (s : Session σ) :
    FetchesAtMost k indexPath (Call.index.fetches t k s) ∧
      ∀ e ∈ Call.index.fetches t k s, e.isUsableIndex →
        (Call.index.run t k s).cache.index.isSome := by
  obtain ⟨new, hlog, hfew, hkeeps⟩ :=
    hnever.log_of_indexStep (getIndex_step t.recorded k s.recording)
  have hfetches : Call.index.fetches t k s = new := by
    have hreversed := congrArg List.reverse hlog
    rw [List.reverse_append, hfew.reverse_eq] at hreversed
    exact hreversed
  rw [hfetches, ← cache_run_recording]
  exact ⟨hfew, hkeeps⟩

/-- An index that a call was answered with is kept. -/
theorem NeverClears.index_of_usable (hnever : NeverClears t k) {call : Call} {e : Event}
    (hmem : e ∈ call.indexFetches t k s) (husable : e.isUsableIndex) :
    (call.run t k s).cache.index.isSome := by
  cases call with
  | index => exact (hnever.fetches_index s).2 e hmem husable
  | schema apiVersion kind =>
      rw [Call.indexFetches] at hmem
      cases hhit : s.cache.kinds.lookup (key apiVersion kind) with
      | some schema => simp [hhit] at hmem
      | none =>
          rw [hhit] at hmem
          rw [Call.run, hnever.index_of_schemaStep hhit (getSchema_step t k apiVersion kind s)]
          exact (hnever.fetches_index s).2 e hmem husable
  | clear => simp [Call.indexFetches] at hmem

/-- A kept schema spares all fetches. -/
theorem fetches_of_hit {apiVersion kind : String} {schema : Schema}
    (hhit : s.cache.kinds.lookup (key apiVersion kind) = some schema) :
    (Call.schema apiVersion kind).fetches t k s = [] := by
  have hhitRecorded : s.recording.cache.kinds.lookup (key apiVersion kind) = some schema := hhit
  simp only [Call.fetches, Call.run, getSchema_of_hit hhitRecorded]
  rfl

/-- Without a kept schema a request for one fetches for the index first. -/
theorem NeverClears.fetches_of_miss (hnever : NeverClears t k) {apiVersion kind : String}
    (hmiss : s.cache.kinds.lookup (key apiVersion kind) = none) :
    ∃ path document, FetchesAtMost k path document ∧
      (Call.schema apiVersion kind).fetches t k s = Call.index.fetches t k s ++ document := by
  have hmissRecorded : s.recording.cache.kinds.lookup (key apiVersion kind) = none := hmiss
  obtain ⟨path, document, hfew, hlog⟩ := hnever.log_of_schemaStep hmissRecorded
    (getSchema_step t.recorded k apiVersion kind s.recording)
  refine ⟨path, document, hfew, ?_⟩
  calc
    (Call.schema apiVersion kind).fetches t k s =
        (document ++ (Call.index.run t.recorded k s.recording).log).reverse :=
      congrArg List.reverse hlog
    _ = Call.index.fetches t k s ++ document := by
      rw [List.reverse_append, hfew.reverse_eq]
      rfl

theorem Turn.isFrugal_of_append {turn : Turn} {path : String} {document : List Event}
    (hindex : FetchesAtMost turn.kubeconfig indexPath turn.indexFetches)
    (hfew : FetchesAtMost turn.kubeconfig path document)
    (hfetches : turn.fetches = turn.indexFetches ++ document) : turn.IsFrugal where
  index_first := by
    rw [hfetches]
    exact List.prefix_append _ _
  index := hindex
  document := by
    refine ⟨path, ?_⟩
    rw [Turn.documentFetches, hfetches, List.drop_left]
    exact hfew

theorem NeverClears.turn_isFrugal (hnever : NeverClears t k) (call : Call) (s : Session σ) :
    (call.turn t k s).IsFrugal := by
  have hnothing : FetchesAtMost k "" [] := .inl rfl
  have hasked := (hnever.fetches_index s).1
  cases call with
  | index => exact Turn.isFrugal_of_append hasked hnothing (List.append_nil _).symm
  | schema apiVersion kind =>
      cases hhit : s.cache.kinds.lookup (key apiVersion kind) with
      | some schema =>
          have hindex : (Call.schema apiVersion kind).indexFetches t k s = [] := by
            simp [Call.indexFetches, hhit]
          apply Turn.isFrugal_of_append (.inl hindex) hnothing
          simp [Call.turn, hindex, fetches_of_hit hhit]
      | none =>
          have hindex : (Call.schema apiVersion kind).indexFetches t k s =
              Call.index.fetches t k s := by
            simp [Call.indexFetches, hhit]
          obtain ⟨path, document, hfew, hfetches⟩ := hnever.fetches_of_miss hhit
          apply Turn.isFrugal_of_append _ hfew
          · simp [Call.turn, hindex, hfetches]
          · simp only [Call.turn, hindex]
            exact hasked
  | clear => exact Turn.isFrugal_of_append (.inl rfl) hnothing rfl

/-- What a request for a schema answers is kept. -/
theorem NeverClears.lookup_of_schema (hnever : NeverClears t k) {apiVersion kind : String}
    {schema : Schema} (hfound : (getSchema t k apiVersion kind s).1.toOption = some schema) :
    (getSchema t k apiVersion kind s).2.cache.kinds.lookup (key apiVersion kind) =
      some schema := by
  cases hhit : s.cache.kinds.lookup (key apiVersion kind) with
  | some first =>
      rw [getSchema_of_hit hhit] at hfound ⊢
      exact hhit.trans hfound
  | none =>
      rw [hnever.schemaStep hhit (getSchema_step t k apiVersion kind s), hfound]
      exact List.lookup_cons_self

/-- A kept schema stays. -/
theorem NeverClears.lookup_of_run (hnever : NeverClears t k) {call : Call} (hstays : call ≠ .clear)
    {κ : String} {schema : Schema} (hkept : s.cache.kinds.lookup κ = some schema) :
    (call.run t k s).cache.kinds.lookup κ = some schema := by
  cases call with
  | index =>
      rw [Call.run, (hnever.indexStep (getIndex_step t k s)).2]
      exact hkept
  | schema apiVersion kind =>
      cases hhit : s.cache.kinds.lookup (key apiVersion kind) with
      | some first =>
          simp only [Call.run, getSchema_of_hit hhit]
          exact hkept
      | none =>
          -- What is stored has a key that was missing, so it does not cover the kept one.
          have hother : (κ == key apiVersion kind) = false := by
            rw [beq_eq_false_iff_ne]
            rintro rfl
            rw [hhit] at hkept
            cases hkept
          rw [Call.run, hnever.schemaStep hhit (getSchema_step t k apiVersion kind s)]
          cases (getSchema t k apiVersion kind s).1.toOption with
          | none => exact hkept
          | some added =>
              simp only [Option.toList_some, List.map_cons, List.map_nil, List.singleton_append,
                List.lookup_cons, hother]
              exact hkept
  | clear => exact absurd rfl hstays

end Calls

theorem turns_take (t : Transport σ) (calls : List (Kubeconfig × Call)) (n : Nat)
    (s : Session σ) : turns t (calls.take n) s = (turns t calls s).take n := by
  induction calls generalizing n s with
  | nil => simp [turns]
  | cons call rest ih =>
      cases n with
      | zero => rfl
      | succ n => exact congrArg (call.2.turn t call.1 s :: ·) (ih n _)

theorem turns_drop (t : Transport σ) (calls : List (Kubeconfig × Call)) (n : Nat)
    (s : Session σ) :
    turns t (calls.drop n) (runAll t (calls.take n) s) = (turns t calls s).drop n := by
  induction calls generalizing n s with
  | nil => simp [turns]
  | cons call rest ih =>
      cases n with
      | zero => rfl
      | succ n => exact ih n _

theorem map_call_turns (t : Transport σ) (calls : List (Kubeconfig × Call)) (s : Session σ) :
    (turns t calls s).map Turn.call = calls.map Prod.snd := by
  induction calls generalizing s with
  | nil => rfl
  | cons call rest ih => exact congrArg (call.2 :: ·) (ih _)

/-- A stretch of a run is a run from the session in between. -/
theorem eq_turns_of_infix {calls : List (Kubeconfig × Call)} {s : Session σ}
    {stretch : List Turn} (hwithin : stretch <:+: turns t calls s) :
    ∃ part between, stretch = turns t part between := by
  obtain ⟨before, after, hwhole⟩ := hwithin
  refine ⟨(calls.drop before.length).take stretch.length,
    runAll t (calls.take before.length) s, ?_⟩
  rw [turns_take, turns_drop, ← hwhole, List.append_assoc, List.drop_left, List.take_left]

/-- Calls without a clear keep what each of them keeps, and it decides on their turns. -/
theorem forall_mem_turns {kept : Session σ → Prop} {effect : Turn → Prop}
    (hstays : ∀ k (call : Call) s, call ≠ .clear → kept s → kept (call.run t k s))
    (hserves : ∀ k (call : Call) s, kept s → effect (call.turn t k s))
    {calls : List (Kubeconfig × Call)} (hunbroken : ∀ call ∈ calls, call.2 ≠ .clear)
    {s : Session σ} (hholds : kept s) : ∀ turn ∈ turns t calls s, effect turn := by
  induction calls generalizing s with
  | nil => simp [turns]
  | cons call rest ih =>
      obtain ⟨hfirst, hothers⟩ := List.forall_mem_cons.mp hunbroken
      rw [turns, List.forall_mem_cons]
      exact ⟨hserves _ _ s hholds, ih hothers (hstays _ _ s hfirst hholds)⟩

/-- A turn decides on those behind it by what it leaves in the session. -/
theorem pairwise_turns (kept : Session σ → Prop) {cause effect : Turn → Prop}
    (hstarts : ∀ k (call : Call) s, cause (call.turn t k s) → kept (call.run t k s))
    (hstays : ∀ k (call : Call) s, call ≠ .clear → kept s → kept (call.run t k s))
    (hserves : ∀ k (call : Call) s, kept s → effect (call.turn t k s))
    {calls : List (Kubeconfig × Call)} (hunbroken : ∀ call ∈ calls, call.2 ≠ .clear)
    (s : Session σ) : (turns t calls s).Pairwise fun a b => cause a → effect b := by
  induction calls generalizing s with
  | nil => exact List.Pairwise.nil
  | cons call rest ih =>
      obtain ⟨-, hothers⟩ := List.forall_mem_cons.mp hunbroken
      -- The first turn decides on the others through the session that it leaves.
      refine List.Pairwise.cons ?_ (ih hothers _)
      intro b hmem hcaused
      exact forall_mem_turns hstays hserves hothers (hstarts _ _ s hcaused) b hmem

theorem countP_le_one_of_pairwise {α : Type} {p : α → Bool} {l : List α}
    (halone : l.Pairwise fun a b => p a → p b = false) : l.countP p ≤ 1 := by
  induction halone with
  | nil => exact Nat.zero_le 1
  | @cons a l hapart hrest ih =>
      cases hholds : p a with
      | false => rwa [List.countP_cons_of_neg (by simp [hholds])]
      | true =>
          have hnoneLater : l.countP p = 0 := by
            rw [List.countP_eq_zero]
            intro b hmem
            simp [hapart b hmem hholds]
          simp [List.countP_cons_of_pos hholds, hnoneLater]

section Runs

variable {calls : List (Kubeconfig × Call)} {s : Session σ}

theorem turns_isFrugal (hnever : ∀ k, NeverClears t k) (calls : List (Kubeconfig × Call))
    (s : Session σ) : ∀ turn ∈ turns t calls s, turn.IsFrugal := by
  induction calls generalizing s with
  | nil => simp [turns]
  | cons call rest ih =>
      rw [turns, List.forall_mem_cons]
      exact ⟨(hnever call.1).turn_isFrugal call.2 s, ih _⟩

/-- After a usable index nothing is fetched for the index. -/
theorem pairwise_index (hnever : ∀ k, NeverClears t k)
    (hunbroken : ∀ call ∈ calls, call.2 ≠ .clear) (s : Session σ) :
    (turns t calls s).Pairwise fun a b =>
      (∃ e ∈ a.indexFetches, e.isUsableIndex) → b.indexFetches = [] := by
  apply pairwise_turns (fun s : Session σ => s.cache.index.isSome)
  · rintro k call s ⟨e, hmem, husable⟩
    exact (hnever k).index_of_usable hmem husable
  · intro k call s hstays hkept
    exact (hnever k).index_of_run hstays hkept
  · intro k call s hkept
    exact indexFetches_of_kept call hkept
  · exact hunbroken

/-- After a schema that was given for a pair, all requests for the pair give it without a fetch. -/
theorem pairwise_schema (hnever : ∀ k, NeverClears t k)
    (hunbroken : ∀ call ∈ calls, call.2 ≠ .clear) (s : Session σ) (apiVersion kind : String)
    (schema : Schema) :
    (turns t calls s).Pairwise fun a b =>
      (a.call = .schema apiVersion kind ∧ a.schema? = some schema) →
        b.call = .schema apiVersion kind → b.fetches = [] ∧ b.schema? = some schema := by
  apply pairwise_turns
    (fun s : Session σ => s.cache.kinds.lookup (key apiVersion kind) = some schema)
  · rintro k call s ⟨rfl, hgiven⟩
    exact (hnever k).lookup_of_schema hgiven
  · intro k call s hstays hkept
    exact (hnever k).lookup_of_run hstays hkept
  · rintro k call s hkept rfl
    exact ⟨fetches_of_hit hkept, congrArg (fun r => r.1.toOption) (getSchema_of_hit hkept)⟩
  · exact hunbroken

/-- Between clears one usable index and one schema for each pair are enough. -/
theorem fetchOnce_turns (hnever : ∀ k, NeverClears t k)
    (hunbroken : ∀ call ∈ calls, call.2 ≠ .clear) (s : Session σ) :
    FetchOnce (turns t calls s) where
  index_once := by
    apply countP_le_one_of_pairwise
    rw [List.pairwise_flatMap]
    constructor
    · intro turn hmem
      exact (turns_isFrugal hnever calls s turn hmem).index.pairwise _
    · refine (pairwise_index hnever hunbroken s).imp ?_
      intro a b hkept e hmem later hmemLater husable
      rw [hkept ⟨e, hmem, husable⟩] at hmemLater
      cases hmemLater
  index_kept := pairwise_index hnever hunbroken s
  schema_once := by
    intro apiVersion kind
    apply countP_le_one_of_pairwise
    rw [List.pairwise_iff_forall_sublist]
    intro a b hlater hobtains
    obtain ⟨hcalled, -, hgiven⟩ := Turn.obtains_iff.mp hobtains
    obtain ⟨schema, hgiven⟩ := Option.isSome_iff_exists.mp hgiven
    have hkept := List.pairwise_iff_forall_sublist.mp
      (pairwise_schema hnever hunbroken s apiVersion kind schema) hlater ⟨hcalled, hgiven⟩
    rw [Bool.eq_false_iff]
    intro hagain
    obtain ⟨hcalled, hfetched, -⟩ := Turn.obtains_iff.mp hagain
    exact hfetched (hkept hcalled).1
  schema_kept := by
    intro apiVersion kind schema
    refine (pairwise_schema hnever hunbroken s apiVersion kind schema).imp ?_
    intro a b hkept hobtains hgiven
    exact hkept ⟨(Turn.obtains_iff.mp hobtains).1, hgiven⟩

end Runs

/-- While a transport never clears the cache, every call makes at most one fetch for the index and
then at most one for a description. Between two clears of a run at most one fetch is answered by a
usable index, and at most one request for each pair fetches and succeeds. The calls behind it are
served by what is kept. -/
theorem fetches_of_run (hnever : ∀ k, NeverClears t k) (calls : List (Kubeconfig × Call))
    (s : Session σ) :
    (∀ turn ∈ turns t calls s, turn.IsFrugal) ∧
    ∀ stretch, stretch <:+: turns t calls s → (∀ turn ∈ stretch, turn.call ≠ .clear) →
      FetchOnce stretch := by
  refine ⟨turns_isFrugal hnever calls s, ?_⟩
  intro stretch hwithin hunbroken
  obtain ⟨part, between, rfl⟩ := eq_turns_of_infix hwithin
  apply fetchOnce_turns hnever
  intro call hmem
  have hcalled : call.2 ∈ (turns t part between).map Turn.call := by
    rw [map_call_turns]
    exact List.mem_map_of_mem hmem
  obtain ⟨turn, hturn, hsame⟩ := List.mem_map.mp hcalled
  exact hsame ▸ hunbroken turn hturn

/-- A request for a kind that is not there, two for one that is, and a clear before the last
call. -/
def repeatedCalls : List (Kubeconfig × Call) :=
  [.schema "apps/v1" "Pod", .schema "apps/v1" "Deployment", .index, .schema "apps/v1" "Deployment",
    .clear, .index].map (oneCluster, ·)

/-- The index is fetched by a request that fails, and from then on only after the clear. -/
theorem fetches_of_repeatedCalls :
    (∀ k, NeverClears (transportOf deployments fun _ => 0) k) ∧
    ((turns (transportOf deployments fun _ => 0) repeatedCalls ⟨.empty, ()⟩).map fun turn =>
        (turn.indexFetches.length, turn.documentFetches.length)) =
      [(1, 1), (0, 1), (0, 0), (0, 0), (0, 0), (1, 0)] ∧
    (∀ turn ∈ turns (transportOf deployments fun _ => 0) repeatedCalls ⟨.empty, ()⟩,
      turn.IsFrugal) ∧
    FetchOnce ((turns (transportOf deployments fun _ => 0) repeatedCalls ⟨.empty, ()⟩).take 4) := by
  have hnever : ∀ k, NeverClears (transportOf deployments fun _ => 0) k := fun _ _ _ => rfl
  obtain ⟨hfrugal, honce⟩ := fetches_of_run hnever repeatedCalls ⟨.empty, ()⟩
  refine ⟨hnever, by decide +kernel, hfrugal, honce _ (List.take_prefix _ _).isInfix ?_⟩
  decide +kernel

end SchemaCache

end ManifestForm
