import ManifestForm.Form.Service
import ManifestForm.Proofs.Manifest.Stream

/-!
# Creating resources

A recorded host keeps a list of what it has been asked to do. To create the
manifests of a text it is asked once, for all of them together, or it is not
asked at all, and then everything is left as it was.
-/

namespace ManifestForm

variable {σ η : Type}

section Hosts

/-- What a host can be asked to do. -/
inductive HostCall where
  | create (context : String) (manifests : List Json.Object)
  | exec (program : String) (args : List String)
  | openDialog (options : DialogOptions)

/-- A host that writes down its calls, the first one first. -/
def Host.recorded (h : Host η) : Host (η × List HostCall) where
  kubeconfigPath := h.kubeconfigPath
  create context manifests x :=
    let (r, state) := h.create context manifests x.1
    (r, state, x.2 ++ [.create context manifests])
  exec program args x :=
    let (r, state) := h.exec program args x.1
    (r, state, x.2 ++ [.exec program args])
  openDialog options x :=
    let (r, state) := h.openDialog options x.1
    (r, state, x.2 ++ [.openDialog options])

def Setting.recorded (e : Setting σ η) : Setting σ (η × List HostCall) :=
  ⟨e.transport, e.host.recorded, e.files⟩

theorem Json.Object.contains_iff {o : Json.Object} {name : String} :
    o.contains name ↔ name ∈ o.keys := by
  simp [Json.Object.contains, Json.Object.keys]

end Hosts

namespace Form

/-- The same form with a list of calls beside the state of its host. -/
def withCalls (calls : List HostCall) (f : Form σ η) : Form σ (η × List HostCall) :=
  ⟨f.reader, f.transport, f.host, calls⟩

section Submission

/-- All that it takes to create the manifests of a text: the mappings among the documents of a
stream without a fault, at least one of them with a kind, and the context that the kubeconfig of
the host names. -/
structure Submits (e : Setting σ η) (content context : String) (manifests : List Json.Object) :
    Prop where
  parsed : ∃ ds, (Yaml.Documents.ofText content).all = .ok ds ∧
    manifests = (Manifest.documentValues [] ds).filterMap Json.object?
  has_kind : ∃ manifest ∈ manifests, "kind" ∈ Json.Object.keys manifest
  loaded : ∃ path k, e.host.kubeconfigPath = some path ∧ Kubeconfig.load e.files path = .ok k ∧
    k.currentContext = some context
  named : context ≠ ""

theorem resources_eq_ok_iff {content : String} {manifests : List Json.Object} :
    resources content = .ok manifests ↔
      (∃ ds, (Yaml.Documents.ofText content).all = .ok ds ∧
        manifests = (Manifest.documentValues [] ds).filterMap Json.object?) ∧
      ∃ manifest ∈ manifests, "kind" ∈ Json.Object.keys manifest := by
  unfold resources Manifest.manifests
  rw [Manifest.documents_eq]
  cases (Yaml.Documents.ofText content).all with
  | error fault => simp [Except.map]
  | ok ds =>
      simp only [Except.map]
      split_ifs with hfound
      · simp only [List.any_eq_true, Json.Object.contains_iff] at hfound
        constructor
        · rintro ⟨⟩
          exact ⟨⟨ds, rfl, rfl⟩, hfound⟩
        · rintro ⟨⟨_, ⟨⟩, rfl⟩, -⟩
          rfl
      · simp only [List.any_eq_true, Json.Object.contains_iff] at hfound
        constructor
        · intro himpossible
          cases himpossible
        · rintro ⟨⟨_, ⟨⟩, rfl⟩, hkind⟩
          exact absurd hkind hfound

theorem currentContext_eq_ok_iff {e : Setting σ η} {context : String} :
    currentContext e = .ok context ↔
      (∃ path k, e.host.kubeconfigPath = some path ∧ Kubeconfig.load e.files path = .ok k ∧
        k.currentContext = some context) ∧ context ≠ "" := by
  unfold currentContext
  cases e.host.kubeconfigPath with
  | none => simp
  | some path =>
      cases hloaded : Kubeconfig.load e.files path with
      | error error => simp [hloaded]
      | ok k =>
          have hnamed : (k.currentContext.filter fun name => !name.isEmpty) = some context ↔
              k.currentContext = some context ∧ context ≠ "" := by
            simp [Option.filter_eq_some_iff]
          simp only [hloaded, Option.some.injEq, exists_and_left, exists_eq_left', Except.ok.injEq,
            ← hnamed]
          cases k.currentContext.filter fun name => !name.isEmpty <;> simp

theorem submits_iff {e : Setting σ η} {content context : String} {manifests : List Json.Object} :
    Submits e content context manifests ↔
      resources content = .ok manifests ∧ currentContext e = .ok context := by
  rw [resources_eq_ok_iff, currentContext_eq_ok_iff]
  constructor
  · rintro ⟨hparsed, hkind, hloaded, hnamed⟩
    exact ⟨⟨hparsed, hkind⟩, hloaded, hnamed⟩
  · rintro ⟨⟨hparsed, hkind⟩, hloaded, hnamed⟩
    exact ⟨hparsed, hkind, hloaded, hnamed⟩

/-- There is only one thing to submit. -/
theorem Submits.unique {e : Setting σ η} {content context context' : String}
    {manifests manifests' : List Json.Object} (h : Submits e content context manifests)
    (h' : Submits e content context' manifests') : context' = context ∧ manifests' = manifests := by
  rw [submits_iff] at h h'
  exact ⟨Except.ok.inj (h'.2.symm.trans h.2), Except.ok.inj (h'.1.symm.trans h.1)⟩

end Submission

section Creating

/-- How a request to create the manifests of a text ends, and what it calls the host for. -/
inductive CreateStep (e : Setting σ η) (content : String) (f : Form σ η) :
    Except FormError Unit → Form σ η → List HostCall → Prop
  | refused (error : FormError)
      (hincomplete : ∀ context manifests, ¬ Submits e content context manifests) :
      CreateStep e content f (.error error) f []
  | submitted {context : String} {manifests : List Json.Object}
      (hcomplete : Submits e content context manifests) :
      CreateStep e content f ((e.host.create context manifests f.host).1.mapError .host)
        { f with host := (e.host.create context manifests f.host).2 } [.create context manifests]

/-- With a recorded host a request ends as it does without, and adds its calls to the list. -/
theorem create_step (e : Setting σ η) (content : String) (f : Form σ η) (calls : List HostCall) :
    ∃ new, CreateStep e content f (create e content f).1 (create e content f).2 new ∧
      create e.recorded content (f.withCalls calls) =
        ((create e content f).1, (create e content f).2.withCalls (calls ++ new)) := by
  have hsame : currentContext e.recorded = currentContext e := rfl
  unfold create
  rw [hsame]
  cases hfound : resources content with
  | error error =>
      refine ⟨[], .refused error fun context manifests hcomplete => ?_, by simp⟩
      cases hfound.symm.trans (submits_iff.mp hcomplete).1
  | ok manifests =>
      cases hcurrent : currentContext e with
      | error error =>
          refine ⟨[], .refused error fun context manifests hcomplete => ?_, by simp⟩
          cases hcurrent.symm.trans (submits_iff.mp hcomplete).2
      | ok context =>
          exact ⟨_, .submitted (submits_iff.mpr ⟨hfound, hcurrent⟩), rfl⟩

theorem mapError_eq_ok_iff {α β γ : Type} {g : α → β} {r : Except α γ} {c : γ} :
    r.mapError g = .ok c ↔ r = .ok c := by
  cases r <;> simp [Except.mapError]

/-- A request to create the manifests of a text calls the host once or not at all. It calls it
exactly if there is all that it takes, with the context and with all mappings of the stream, and it
succeeds exactly if the host is called and does. Without the call it fails and leaves everything as
it was. -/
theorem create_all_or_nothing (e : Setting σ η) (content : String) (f : Form σ η) :
    ∃ calls,
      create e.recorded content (f.withCalls []) =
        ((create e content f).1, (create e content f).2.withCalls calls) ∧
      calls.length ≤ 1 ∧
      (∀ call, call ∈ calls ↔ ∃ context manifests, Submits e content context manifests ∧
        call = .create context manifests) ∧
      ((create e content f).1 = .ok () ↔ ∃ context manifests,
        Submits e content context manifests ∧
          (e.host.create context manifests f.host).1 = .ok ()) ∧
      (calls = [] → (∃ error, (create e content f).1 = .error error) ∧
        (create e content f).2 = f) := by
  obtain ⟨calls, hstep, hrecorded⟩ := create_step e content f []
  refine ⟨calls, hrecorded, ?_⟩
  clear hrecorded
  generalize create e content f = ended at hstep ⊢
  obtain ⟨r, f'⟩ := ended
  cases hstep with
  | refused error hincomplete =>
      refine ⟨Nat.zero_le 1, ?_, ?_, fun _ => ⟨⟨error, rfl⟩, rfl⟩⟩
      · simp [hincomplete]
      · simp [hincomplete]
  | @submitted context manifests hcomplete =>
      refine ⟨Nat.le_refl 1, ?_, ?_, fun hnoneMade => absurd hnoneMade (List.cons_ne_nil _ _)⟩
      · intro call
        rw [List.mem_singleton]
        constructor
        · rintro rfl
          exact ⟨context, manifests, hcomplete, rfl⟩
        · rintro ⟨context', manifests', hcomplete', rfl⟩
          obtain ⟨rfl, rfl⟩ := hcomplete.unique hcomplete'
          rfl
      · refine mapError_eq_ok_iff.trans
          ⟨fun hcreated => ⟨context, manifests, hcomplete, hcreated⟩, ?_⟩
        rintro ⟨context', manifests', hcomplete', hcreated⟩
        obtain ⟨rfl, rfl⟩ := hcomplete.unique hcomplete'
        exact hcreated

/-- A stream of a list, a mapping without a kind, a null document and a mapping with a kind. -/
def mixedStream : String := "- 1\n---\nname: a\n---\n~\n---\nkind: Pod\n"

/-- A host that counts the manifests it has created. Its kubeconfig names a context. -/
def countingSetting : Setting Unit Nat where
  transport := fun _ _ state => (⟨.error .exchange, 0⟩, state)
  host := {
    kubeconfigPath := some "config"
    create := fun _ manifests count => (.ok (), count + manifests.length)
    exec := fun program _ count => (.error (.notStarted program), count)
    openDialog := fun _ count => (.error (.unsupported "a dialog"), count) }
  files := fun _ => .ok (Utf8.encode "current-context: here\n".toList)

def countingForm : Form Unit Nat := start countingSetting () 0

/-- The host is called once, for the two mappings in the context of its kubeconfig. -/
theorem create_mixedStream :
    ∃ manifests, manifests.map Json.Object.keys = [["name"], ["kind"]] ∧
      Submits countingSetting mixedStream "here" manifests ∧
      create countingSetting.recorded mixedStream (countingForm.withCalls []) =
        ((create countingSetting mixedStream countingForm).1,
          (create countingSetting mixedStream countingForm).2.withCalls
            [.create "here" manifests]) ∧
      (create countingSetting mixedStream countingForm).1 = .ok () := by
  have hkeys : (resources mixedStream).map (·.map Json.Object.keys) =
      .ok [["name"], ["kind"]] := by decide +kernel
  have hcontext : currentContext countingSetting = .ok "here" := by decide +kernel
  obtain ⟨manifests, hmanifests⟩ : ∃ manifests, resources mixedStream = .ok manifests := by
    cases hmanifests : resources mixedStream with
    | error error => rw [hmanifests] at hkeys; cases hkeys
    | ok manifests => exact ⟨manifests, rfl⟩
  rw [hmanifests] at hkeys
  have hsubmits : Submits countingSetting mixedStream "here" manifests :=
    submits_iff.mpr ⟨hmanifests, hcontext⟩
  obtain ⟨calls, hrecorded, hlength, hcalls, hok, -⟩ :=
    create_all_or_nothing countingSetting mixedStream countingForm
  have hmem : HostCall.create "here" manifests ∈ calls := (hcalls _).mpr ⟨_, _, hsubmits, rfl⟩
  obtain rfl : calls = [.create "here" manifests] := by
    have hone : calls.length = 1 := by
      have hpos := List.length_pos_of_mem hmem
      omega
    obtain ⟨call, rfl⟩ := List.length_eq_one_iff.mp hone
    rw [List.mem_singleton.mp hmem]
  exact ⟨manifests, Except.ok.inj hkeys, hsubmits, hrecorded, hok.mpr ⟨_, _, hsubmits, rfl⟩⟩

/-- A fault in a later document leaves nothing to create. -/
example : (resources "kind: Pod\n---\nkind: [Pod\n").toOption.isNone := by decide +kernel

end Creating

end Form

end ManifestForm
