import ManifestForm.Proofs.Schema.Session

/-!
# The history of a session

A recorded transport runs beside a log of its fetches and of the clears during
them, newest first, and answers as the transport does. What a cache keeps can
then be derived from the answers in the part of the log that was written since
the cache was known to keep nothing.
-/

namespace ManifestForm

/-- What a log remembers: fetches when they are issued, clears, and the server that a reader is
bound to from then on. -/
inductive Event where
  | fetched (k : Kubeconfig) (url : String) (outcome : Except TransportError Json)
  | cleared
  | bound (server : Option String)

namespace Event

def isClear : Event → Bool
  | .cleared => true
  | _ => false

def isBound : Event → Bool
  | .bound _ => true
  | _ => false

/-- A clear, or a fetch from the server of a kubeconfig. -/
def IsOf (k : Kubeconfig) : Event → Prop
  | .fetched k' url _ => k' = k ∧ ∃ server suffix, SchemaCache.server? k = some server ∧
      url = server ++ suffix
  | .cleared => True
  | .bound _ => False

end Event

variable {σ : Type}

/-- A transport that writes down its fetches, with the clears that happen meanwhile after them. -/
def Transport.recorded (t : Transport σ) : Transport (σ × List Event) := fun k url x =>
  let (reply, state) := t k url x.1
  (reply, state, List.replicate reply.clears .cleared ++ .fetched k url reply.outcome :: x.2)

namespace SchemaCache

def Session.log (s : Session (σ × List Event)) : List Event := s.transport.2

/-- The session after an event that is not a fetch. -/
def Session.note (e : Event) (s : Session (σ × List Event)) : Session (σ × List Event) :=
  ⟨s.cache, s.transport.1, e :: s.transport.2⟩

/-- Forgetting the log gives the transport back. -/
theorem imitates_recorded (t : Transport σ) : Imitates t t.recorded Prod.fst := fun _ _ _ => rfl

variable {t : Transport σ} {k : Kubeconfig} {s s' : Session (σ × List Event)} {log : List Event}

/-- A recorded fetch stands before the clears that happen meanwhile. -/
theorem fetch_recorded {url : String} {outcome : Except TransportError Json}
    (hfetched : s.fetch t.recorded k url = (outcome, s')) :
    ∃ n, s'.log = List.replicate n .cleared ++ .fetched k url outcome :: s.log ∧
      s'.cache = s.cache.clearTimes n := by
  obtain ⟨rfl, rfl⟩ := fetch_eq_iff.mp hfetched
  exact ⟨_, rfl, rfl⟩

section Derivations

/-- An index is decoded from an answer to a fetch in a log. -/
inductive IndexFrom (log : List Event) : Index → Prop
  | intro {k : Kubeconfig} {server : String} {body : Json} {index : Index}
      (hbound : server? k = some server)
      (hfetched : .fetched k (server ++ indexPath) (.ok body) ∈ log)
      (hdecoded : Index.decode body = .ok index) : IndexFrom log index

/-- A schema is described by an answer to a fetch in a log, whose URL is listed by an index from
the same log. It stands under the key of the pair that it was asked for. -/
inductive KindFrom (log : List Event) : String → Schema → Prop
  | intro {k : Kubeconfig} {apiVersion kind url server : String} {index : Index} {body : Json}
      {schema : Schema} (hindexFrom : IndexFrom log index)
      (hlisted : index.url? apiVersion = some url) (hbound : server? k = some server)
      (hfetched : .fetched k (server ++ url) (.ok body) ∈ log)
      (hknown : describe apiVersion kind body = .ok schema) :
      KindFrom log (key apiVersion kind) schema

/-- Everything that a cache keeps comes from a log. -/
def Derived (log : List Event) (c : SchemaCache) : Prop :=
  Keeps (IndexFrom log) (KindFrom log) c

theorem IndexFrom.mono {more : List Event} (hsub : log ⊆ more) {index : Index}
    (hderived : IndexFrom log index) : IndexFrom more index := by
  cases hderived with
  | intro hbound hfetched hdecoded => exact .intro hbound (hsub hfetched) hdecoded

theorem KindFrom.mono {more : List Event} (hsub : log ⊆ more) {κ : String} {schema : Schema}
    (hderived : KindFrom log κ schema) : KindFrom more κ schema := by
  cases hderived with
  | intro hindexFrom hlisted hbound hfetched hknown =>
      exact .intro (hindexFrom.mono hsub) hlisted hbound (hsub hfetched) hknown

theorem Derived.mono {more : List Event} (hsub : log ⊆ more) {c : SchemaCache}
    (hderived : Derived log c) : Derived more c :=
  Keeps.mono (fun _ => IndexFrom.mono hsub) (fun _ _ => KindFrom.mono hsub) hderived

/-- New events of a session under a kubeconfig, from which the cache can be derived together with
what it could be derived from before. -/
structure Grows (k : Kubeconfig) (log : List Event) (s s' : Session (σ × List Event))
    (new : List Event) : Prop where
  log_eq : s'.log = new ++ s.log
  isOf : ∀ e ∈ new, e.IsOf k
  derived : Derived (new ++ log) s'.cache

theorem Derived.grows_refl (hderived : Derived log s.cache) : Grows k log s s [] where
  log_eq := rfl
  isOf := by simp
  derived := hderived

/-- A fetch from the server of the kubeconfig grows the log. -/
theorem Grows.fetch {s₀ : Session (σ × List Event)} {new : List Event}
    (hgrows : Grows k log s₀ s new) {server suffix : String} (hbound : server? k = some server)
    {outcome : Except TransportError Json}
    (hfetched : s.fetch t.recorded k (server ++ suffix) = (outcome, s')) :
    ∃ more, Grows k log s₀ s' (more ++ new) ∧
      .fetched k (server ++ suffix) outcome ∈ more := by
  obtain ⟨n, hentries, hcache⟩ := fetch_recorded hfetched
  refine ⟨List.replicate n .cleared ++ [.fetched k (server ++ suffix) outcome],
    ⟨?_, ?_, ?_⟩, by simp⟩
  · rw [hentries, hgrows.log_eq]
    simp
  · intro e hmem
    rcases List.mem_append.mp hmem with hmem | hmem
    · rcases List.mem_append.mp hmem with hmem | hmem
      · rw [List.eq_of_mem_replicate hmem]
        trivial
      · rw [List.mem_singleton.mp hmem]
        exact ⟨rfl, server, suffix, hbound, rfl⟩
    · exact hgrows.isOf e hmem
  · rw [hcache, List.append_assoc]
    exact Keeps.clearTimes n (hgrows.derived.mono (List.subset_append_right _ _))

/-- A request for the index grows the log, and its answer can be derived from it. -/
theorem Derived.indexStep (hderived : Derived log s.cache) {r : Except SchemaError Index}
    (hstep : IndexStep t.recorded k s r s') :
    ∃ new, Grows k log s s' new ∧ ∀ index, r = .ok index → IndexFrom (new ++ log) index := by
  cases hstep with
  | kept hhit =>
      refine ⟨[], hderived.grows_refl, ?_⟩
      rintro _ ⟨⟩
      exact hderived.index _ hhit
  | noCluster hmiss hunbound => exact ⟨[], hderived.grows_refl, by simp⟩
  | unanswered hmiss hbound hfetched =>
      obtain ⟨new, hgrows, -⟩ := hderived.grows_refl.fetch hbound hfetched
      exact ⟨_, hgrows, by simp⟩
  | malformed hmiss hbound hfetched hdecoded =>
      obtain ⟨new, hgrows, -⟩ := hderived.grows_refl.fetch hbound hfetched
      exact ⟨_, hgrows, by simp⟩
  | listed hmiss hbound hfetched hdecoded =>
      obtain ⟨new, hgrows, hmem⟩ := hderived.grows_refl.fetch hbound hfetched
      have hfound : IndexFrom (new ++ [] ++ log) _ :=
        .intro hbound (by simp [hmem]) hdecoded
      refine ⟨_, ⟨hgrows.log_eq, hgrows.isOf, Keeps.storeIndex hfound hgrows.derived⟩, ?_⟩
      rintro _ ⟨⟩
      exact hfound

/-- A request for a schema grows the log. -/
theorem Derived.schemaStep (hderived : Derived log s.cache) {apiVersion kind : String}
    {r : Except SchemaError Schema} (hstep : SchemaStep t.recorded k apiVersion kind s r s') :
    ∃ new, Grows k log s s' new := by
  cases hstep with
  | kept hhit => exact ⟨[], hderived.grows_refl⟩
  | noIndex _ hasked =>
      obtain ⟨new, hgrows, -⟩ := hderived.indexStep hasked
      exact ⟨new, hgrows⟩
  | notListed _ hasked hunlisted =>
      obtain ⟨new, hgrows, -⟩ := hderived.indexStep hasked
      exact ⟨new, hgrows⟩
  | noCluster _ hasked hlisted hunbound =>
      obtain ⟨new, hgrows, -⟩ := hderived.indexStep hasked
      exact ⟨new, hgrows⟩
  | unanswered _ hasked hlisted hbound hfetched =>
      obtain ⟨_, hgrows, -⟩ := hderived.indexStep hasked
      obtain ⟨more, hgrows, -⟩ := hgrows.fetch hbound hfetched
      exact ⟨_, hgrows⟩
  | undescribed _ hasked hlisted hbound hfetched hunknown =>
      obtain ⟨_, hgrows, -⟩ := hderived.indexStep hasked
      obtain ⟨more, hgrows, -⟩ := hgrows.fetch hbound hfetched
      exact ⟨_, hgrows⟩
  | described _ hasked hlisted hbound hfetched hknown =>
      obtain ⟨new, hgrows, hfound⟩ := hderived.indexStep hasked
      obtain ⟨more, hgrows, hmem⟩ := hgrows.fetch hbound hfetched
      have hindexFrom := (hfound _ rfl).mono (List.subset_append_right more (new ++ log))
      have hkindFrom : KindFrom (more ++ new ++ log) (key apiVersion kind) _ :=
        .intro (by simpa using hindexFrom) hlisted hbound (by simp [hmem]) hknown
      exact ⟨_, hgrows.log_eq, hgrows.isOf, Keeps.storeKind hkindFrom hgrows.derived⟩

end Derivations

end SchemaCache

end ManifestForm
