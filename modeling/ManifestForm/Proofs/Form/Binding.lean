import ManifestForm.Form.Reader
import ManifestForm.Proofs.Schema.History

/-!
# What a reader is bound to

A reader holds a kubeconfig exactly while it is bound to a server, which is the
one of the current cluster of the kubeconfig. It clears its cache when it lets
go of a server, so that everything in the cache has been fetched from the
server it is bound to, and after it was bound to it.
-/

namespace ManifestForm.ManifestReader

open SchemaCache (Session Derived Grows)

variable {σ : Type}

section Steps

/-- What happens to a reader: a change of a kubeconfig under the files of the moment, or a request
for the schema of a text. -/
inductive Step where
  | kubeconfig (files : Files) (change : KubeconfigChange)
  | manifest (content : String)

def Step.run (t : Transport σ) (step : Step) (s : ManifestReader × σ) : ManifestReader × σ :=
  match step with
  | .kubeconfig files change => (s.1.follow files change, s.2)
  | .manifest content => (manifestSchema t content s).2

def runSteps (t : Transport σ) (steps : List Step) (s : ManifestReader × σ) :
    ManifestReader × σ :=
  steps.foldl (fun s step => step.run t s) s

/-- A recorded step, which writes down when the reader is bound to another server or to none. -/
def Step.record (t : Transport σ) (step : Step) (s : ManifestReader × σ × List Event) :
    ManifestReader × σ × List Event :=
  match step with
  | .kubeconfig files change =>
    let r := s.1.follow files change
    (r, s.2.1, if r.server? = s.1.server? then s.2.2 else .bound r.server? :: s.2.2)
  | .manifest content => (manifestSchema t.recorded content s).2

def recordSteps (t : Transport σ) (steps : List Step) (s : ManifestReader × σ × List Event) :
    ManifestReader × σ × List Event :=
  steps.foldl (fun s step => step.record t s) s

/-- How a reader follows a change. -/
inductive FollowStep (files : Files) (change : KubeconfigChange) (r : ManifestReader) :
    ManifestReader → Prop
  | deleted (hkind : change.kind = .delete) :
      FollowStep files change r
        { r with kubeconfig? := none, server? := none, cache := r.cache.clear }
  | stayed {k : Kubeconfig} {cluster : Cluster} (hkind : change.kind ≠ .delete)
      (hloaded : Kubeconfig.load files change.path = .ok k)
      (hcurrent : k.currentCluster? = some cluster) (hsame : r.server? = some cluster.server) :
      FollowStep files change r { r with kubeconfig? := some k }
  | moved {k : Kubeconfig} {cluster : Cluster} (hkind : change.kind ≠ .delete)
      (hloaded : Kubeconfig.load files change.path = .ok k)
      (hcurrent : k.currentCluster? = some cluster) (hother : r.server? ≠ some cluster.server) :
      FollowStep files change r
        { r with
          kubeconfig? := some k
          server? := some cluster.server
          cache := r.cache.clear }
  | ignored (hkind : change.kind ≠ .delete)
      (huseless : ∀ k, Kubeconfig.load files change.path = .ok k → k.currentCluster? = none) :
      FollowStep files change r r

theorem follow_of_ne_delete {files : Files} {change : KubeconfigChange} {r : ManifestReader}
    (hkind : change.kind ≠ .delete) :
    r.follow files change =
      match Kubeconfig.load files change.path with
      | .ok k => r.bind k
      | .error _ => r := by
  unfold follow
  cases h : change.kind with
  | delete => exact absurd h hkind
  | create => rfl
  | update => rfl

/-- Every change is followed in one of these ways. -/
theorem follow_step (files : Files) (change : KubeconfigChange) (r : ManifestReader) :
    FollowStep files change r (r.follow files change) := by
  by_cases hkind : change.kind = .delete
  · have hdeleted := @FollowStep.deleted files change r hkind
    simpa only [follow, hkind] using hdeleted
  · rw [follow_of_ne_delete hkind]
    cases hloaded : Kubeconfig.load files change.path with
    | error e => exact .ignored hkind (by simp [hloaded])
    | ok k =>
        cases hcurrent : k.currentCluster? with
        | none =>
            simp only [bind, hcurrent]
            exact .ignored hkind (by simp [hloaded, hcurrent])
        | some cluster =>
            by_cases hsame : r.server? = some cluster.server
            · have hstayed := FollowStep.stayed hkind hloaded hcurrent hsame
              simpa only [bind, hcurrent, hsame, if_true] using hsame ▸ hstayed
            · have hmoved := FollowStep.moved hkind hloaded hcurrent hsame
              simpa only [bind, hcurrent, if_neg hsame] using hmoved

/-- A follow step is what the reader does. -/
theorem FollowStep.eq {files : Files} {change : KubeconfigChange} {r r' : ManifestReader}
    (hstep : FollowStep files change r r') : r.follow files change = r' := by
  cases hstep with
  | deleted hkind => simp only [follow, hkind]
  | stayed hkind hloaded hcurrent hsame =>
      simp only [follow_of_ne_delete hkind, hloaded, ManifestReader.bind, hcurrent, ← hsame,
        if_true]
  | moved hkind hloaded hcurrent hother =>
      simp only [follow_of_ne_delete hkind, hloaded, ManifestReader.bind, hcurrent, if_neg hother]
  | ignored hkind huseless =>
      rw [follow_of_ne_delete hkind]
      cases hloaded : Kubeconfig.load files change.path with
      | error e => rfl
      | ok k => simp only [ManifestReader.bind, huseless k hloaded]

/-- A request leaves the reader as it is, or replaces its cache by the one after a request for a
schema under the kubeconfig that it holds. -/
theorem manifestSchema_session (t : Transport σ) (content : String) (s : ManifestReader × σ) :
    (manifestSchema t content s).2 = s ∨
      ∃ k apiVersion kind session, s.1.kubeconfig? = some k ∧
        session = (SchemaCache.getSchema t k apiVersion kind ⟨s.1.cache, s.2⟩).2 ∧
        (manifestSchema t content s).2 =
          ({ s.1 with cache := session.cache }, session.transport) := by
  unfold manifestSchema
  cases hheld : s.1.kubeconfig? with
  | none => exact .inl rfl
  | some k =>
      rcases hidentified : identify content with e | ⟨apiVersion, kind⟩
      · exact .inl rfl
      · refine .inr ⟨k, apiVersion, kind, _, rfl, rfl, ?_⟩
        rcases hfound : SchemaCache.getSchema t k apiVersion kind ⟨s.1.cache, s.2⟩ with
          ⟨e | schema, session⟩
        · simp only [hfound]
        · simp only [hfound]

end Steps

section Forgetting

/-- A recorded reader without its log. -/
def forget (s : ManifestReader × σ × List Event) : ManifestReader × σ := (s.1, s.2.1)

theorem forget_manifestSchema (t : Transport σ) (content : String)
    (s : ManifestReader × σ × List Event) :
    manifestSchema t content (forget s) =
      ((manifestSchema t.recorded content s).1,
        forget (manifestSchema t.recorded content s).2) := by
  unfold manifestSchema
  cases hheld : s.1.kubeconfig? with
  | none => simp only [forget, hheld]
  | some k =>
      rcases hidentified : identify content with e | ⟨apiVersion, kind⟩
      · simp only [forget, hheld]
      · have hsame := (SchemaCache.imitates_recorded t).getSchema k apiVersion kind
          ⟨s.1.cache, s.2⟩
        simp only [forget, hheld]
        change SchemaCache.getSchema t k apiVersion kind ⟨s.1.cache, s.2.1⟩ = _ at hsame
        rw [hsame]
        rcases SchemaCache.getSchema t.recorded k apiVersion kind ⟨s.1.cache, s.2⟩ with
          ⟨e | schema, session⟩
        · rfl
        · rfl

theorem forget_record (t : Transport σ) (step : Step) (s : ManifestReader × σ × List Event) :
    forget (step.record t s) = step.run t (forget s) := by
  cases step with
  | kubeconfig files change => rfl
  | manifest content => exact (congrArg Prod.snd (forget_manifestSchema t content s)).symm

/-- Without its log a recorded run is the run. -/
theorem forget_recordSteps (t : Transport σ) (steps : List Step)
    (s : ManifestReader × σ × List Event) :
    forget (recordSteps t steps s) = runSteps t steps (forget s) := by
  induction steps generalizing s with
  | nil => rfl
  | cons step rest ih => exact (ih _).trans (congrArg (runSteps t rest) (forget_record t step s))

end Forgetting

section Agreement

/-- The events since the reader was last bound to another server or to none. -/
def sinceBound (log : List Event) : List Event := log.takeWhile fun e => !e.isBound

theorem sinceBound_append {k : Kubeconfig} {new log : List Event} (hnew : ∀ e ∈ new, e.IsOf k) :
    sinceBound (new ++ log) = new ++ sinceBound log := by
  apply List.takeWhile_append_of_pos
  intro e hmem
  have hother := hnew e hmem
  cases e with
  | fetched k' url outcome => rfl
  | cleared => rfl
  | bound server => exact hother.elim

/-- What the reader holds is explained by its log. -/
structure Coherent (r : ManifestReader) (log : List Event) : Prop where
  /-- A kubeconfig is held exactly if a server is. -/
  held : r.kubeconfig?.isSome ↔ r.server?.isSome
  /-- The server is the one of the current cluster of the kubeconfig. -/
  current : ∀ k, r.kubeconfig? = some k → k.currentCluster?.map (·.server) = r.server?
  /-- Without a server nothing is kept. -/
  unbound : r.server? = none → r.cache.index = none ∧ r.cache.kinds = []
  /-- The last binding in the log is the one to the server. -/
  since : ∀ server, r.server? = some server →
    ∃ earlier, log = sinceBound log ++ .bound (some server) :: earlier
  /-- All that was fetched since then was fetched from the server. -/
  urls : ∀ server, r.server? = some server → ∀ k url outcome,
    .fetched k url outcome ∈ sinceBound log →
      ∃ suffix, url = SchemaCache.trimSlashes server ++ suffix
  /-- All that is kept comes from what was fetched since then. -/
  derived : Derived (sinceBound log) r.cache

section Coherence

variable {r r' : ManifestReader} {log : List Event}

theorem coherent_of_unbound (hkubeconfig : r.kubeconfig? = none) (hserver : r.server? = none)
    (hindex : r.cache.index = none) (hkinds : r.cache.kinds = []) : Coherent r log where
  held := by simp [hkubeconfig, hserver]
  current := by simp [hkubeconfig]
  unbound := fun _ => ⟨hindex, hkinds⟩
  since := by simp [hserver]
  urls := by simp [hserver]
  derived := SchemaCache.keeps_of_nothing hindex hkinds

/-- A reader that has just been bound has cleared its cache. -/
theorem coherent_of_moved {k : Kubeconfig} {cluster : Cluster}
    (hkubeconfig : r.kubeconfig? = some k) (hcurrent : k.currentCluster? = some cluster)
    (hserver : r.server? = some cluster.server) (hindex : r.cache.index = none)
    (hkinds : r.cache.kinds = []) : Coherent r (.bound r.server? :: log) where
  held := by simp [hkubeconfig, hserver]
  current := by
    intro k' hheld
    obtain rfl := Option.some.inj (hkubeconfig.symm.trans hheld)
    rw [hcurrent, hserver, Option.map_some]
  unbound := fun _ => ⟨hindex, hkinds⟩
  since := by
    intro bound hsame
    rw [hsame]
    exact ⟨log, rfl⟩
  urls := by simp [sinceBound, Event.isBound]
  derived := SchemaCache.keeps_of_nothing hindex hkinds

/-- The server that a reader fetches from is the one that it is bound to. -/
theorem Coherent.server?_of_held (hcoherent : Coherent r log) {k : Kubeconfig}
    (hheld : r.kubeconfig? = some k) :
    ∃ server, r.server? = some server ∧
      SchemaCache.server? k = some (SchemaCache.trimSlashes server) := by
  obtain ⟨server, hbound⟩ := Option.isSome_iff_exists.mp (hcoherent.held.mp (by simp [hheld]))
  have hcurrent := (hcoherent.current k hheld).trans hbound
  obtain ⟨cluster, hfound, rfl⟩ := Option.map_eq_some_iff.mp hcurrent
  exact ⟨cluster.server, hbound, by rw [SchemaCache.server?, hfound, Option.map_some]⟩

/-- A change of the kubeconfig keeps the agreement. -/
theorem Coherent.follow (hcoherent : Coherent r log) {files : Files} {change : KubeconfigChange}
    (hstep : FollowStep files change r r') :
    Coherent r' (if r'.server? = r.server? then log else .bound r'.server? :: log) := by
  cases hstep with
  | deleted hkind => exact coherent_of_unbound rfl rfl rfl rfl
  | stayed hkind hloaded hcurrent hsame =>
      rw [if_pos rfl]
      exact {
        held := by simp [hsame]
        current := by
          rintro _ ⟨⟩
          rw [hcurrent, hsame, Option.map_some]
        unbound := hcoherent.unbound
        since := hcoherent.since
        urls := hcoherent.urls
        derived := hcoherent.derived }
  | moved hkind hloaded hcurrent hother =>
      rw [if_neg fun hsame => hother hsame.symm]
      exact coherent_of_moved rfl hcurrent rfl rfl rfl
  | ignored hkind huseless =>
      rw [if_pos rfl]
      exact hcoherent

/-- A request under the kubeconfig that is held keeps the agreement. -/
theorem Coherent.request (hcoherent : Coherent r log) {k : Kubeconfig}
    (hheld : r.kubeconfig? = some k) {s s' : Session (σ × List Event)} (hstart : s.log = log)
    {new : List Event} (hgrows : Grows k (sinceBound log) s s' new) :
    Coherent { r with cache := s'.cache } s'.log := by
  obtain ⟨server, hbound, hfetching⟩ := hcoherent.server?_of_held hheld
  have hsince : sinceBound s'.log = new ++ sinceBound log := by
    rw [hgrows.log_eq, hstart, sinceBound_append hgrows.isOf]
  exact {
    held := hcoherent.held
    current := hcoherent.current
    unbound := by
      intro hunbound
      exact absurd (hbound.symm.trans hunbound) (by simp)
    since := by
      intro server' hbound'
      obtain ⟨earlier, hsplit⟩ := hcoherent.since server' hbound'
      refine ⟨earlier, ?_⟩
      rw [hsince, hgrows.log_eq, hstart, List.append_assoc, ← hsplit]
    urls := by
      intro server' hbound' k' url outcome hmem
      rw [hsince] at hmem
      rcases List.mem_append.mp hmem with hmem | hmem
      · obtain ⟨rfl, base, suffix, hfetched, rfl⟩ := hgrows.isOf _ hmem
        obtain rfl := Option.some.inj (hbound.symm.trans hbound')
        obtain rfl := Option.some.inj (hfetching.symm.trans hfetched)
        exact ⟨suffix, rfl⟩
      · exact hcoherent.urls server' hbound' k' url outcome hmem
    derived := hsince ▸ hgrows.derived }

theorem Coherent.record {s : ManifestReader × σ × List Event} (hcoherent : Coherent s.1 s.2.2)
    (t : Transport σ) (step : Step) :
    Coherent (step.record t s).1 (step.record t s).2.2 := by
  cases step with
  | kubeconfig files change => exact hcoherent.follow (follow_step files change s.1)
  | manifest content =>
      change Coherent (manifestSchema t.recorded content s).2.1
        (manifestSchema t.recorded content s).2.2.2
      rcases manifestSchema_session t.recorded content s with
        hsame | ⟨k, apiVersion, kind, session, hheld, hasked, hafter⟩
      · rw [hsame]
        exact hcoherent
      · rw [hafter]
        have hderived : Derived (sinceBound s.2.2)
            (Session.mk s.1.cache s.2).cache := hcoherent.derived
        obtain ⟨new, hgrows⟩ := hderived.schemaStep
          (SchemaCache.getSchema_step t.recorded k apiVersion kind ⟨s.1.cache, s.2⟩)
        rw [← hasked] at hgrows
        exact hcoherent.request hheld rfl hgrows

theorem Coherent.recordSteps {s : ManifestReader × σ × List Event}
    (hcoherent : Coherent s.1 s.2.2) (t : Transport σ) (steps : List Step) :
    Coherent (recordSteps t steps s).1 (recordSteps t steps s).2.2 := by
  induction steps generalizing s with
  | nil => exact hcoherent
  | cons step rest ih => exact ih (hcoherent.record t step)

end Coherence

/-- A recorded run from a new reader is the run with a log beside it, and the reader and the log
agree in the end. A file that cannot be loaded, or names no current cluster, changes nothing. -/
theorem coherent_after_steps (t : Transport σ) (steps : List Step) (x : σ) :
    forget (recordSteps t steps (.empty, x, [])) = runSteps t steps (.empty, x) ∧
    Coherent (recordSteps t steps (.empty, x, [])).1 (recordSteps t steps (.empty, x, [])).2.2 ∧
    (∀ files change (r : ManifestReader), change.kind ≠ .delete →
      (∀ k, Kubeconfig.load files change.path = .ok k → k.currentCluster? = none) →
      r.follow files change = r) := by
  refine ⟨forget_recordSteps t steps _, ?_, ?_⟩
  · have hstart : Coherent .empty [] := coherent_of_unbound rfl rfl rfl rfl
    exact hstart.recordSteps t steps
  · intro files change r hkind huseless
    exact (FollowStep.ignored hkind huseless).eq

/-- A kubeconfig with one cluster. -/
def configText : String :=
  "current-context: here\nclusters: [\x7bname: c, cluster: \x7bserver: http://c/\x7d\x7d]\n" ++
    "contexts: [\x7bname: here, context: \x7bcluster: c\x7d\x7d]"

def configFiles : Files := fun _ => .ok (Utf8.encode configText.toList)

def noFiles : Files := fun _ => .error .notFound

/-- A reader that is bound to the cluster of a file and has been asked for one schema, with the
state of its transport and its log. -/
def boundReader : ManifestReader × Unit × List Event :=
  recordSteps (SchemaCache.transportOf SchemaCache.deployments fun _ => 0)
    [.kubeconfig configFiles ⟨.create, "config"⟩,
      .manifest "apiVersion: apps/v1\nkind: Deployment\n"] (.empty, (), [])

/-- The schema that the bound reader keeps comes from its server, and it stays bound when the file
is gone. -/
theorem coherent_boundReader :
    boundReader.1.server? = some "http://c/" ∧
    boundReader.1.cache.kinds.map (·.1) = ["apps/v1/Deployment"] ∧
    Coherent boundReader.1 boundReader.2.2 ∧
    boundReader.1.follow noFiles ⟨.update, "config"⟩ = boundReader.1 := by
  have hkept : boundReader.1.server? = some "http://c/" ∧
      boundReader.1.cache.kinds.map (·.1) = ["apps/v1/Deployment"] := by
    decide +kernel
  unfold boundReader at hkept ⊢
  obtain ⟨-, hcoherent, hignored⟩ := coherent_after_steps
    (SchemaCache.transportOf SchemaCache.deployments fun _ => 0)
    [.kubeconfig configFiles ⟨.create, "config"⟩,
      .manifest "apiVersion: apps/v1\nkind: Deployment\n"] ()
  refine ⟨hkept.1, hkept.2, hcoherent, hignored noFiles ⟨.update, "config"⟩ _ ?_ ?_⟩
  · exact nofun
  · intro k hloaded
    cases hloaded

end Agreement

end ManifestForm.ManifestReader
