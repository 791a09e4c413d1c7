import ManifestForm.Proofs.Spec.Navigation

/-!
# Cut specs

A cut leaves every node above it with its fields, so a path leads through a cut spec to the nodes of
the whole one, each cut where the fields of the path leave off. Hence a projection can be made in
two walks, if the first one cuts deep enough for the second.
-/

namespace ManifestForm.Spec

open Schema (IsNumeric isIndex_iff)

section Cuts

theorem limitDepth_name (depth : Nat) (s : Spec) : (s.limitDepth depth).name = s.name := by
  cases depth <;> rfl

/-- Of two cuts the higher one counts. -/
theorem limitDepth_limitDepth (d D : Nat) (s : Spec) :
    (s.limitDepth D).limitDepth d = s.limitDepth (min d D) := by
  induction d generalizing D s with
  | zero =>
      rw [Nat.zero_min]
      cases D <;> rfl
  | succ d ih =>
      cases D with
      | zero => simp [limitDepth]
      | succ D =>
          have hchildren : limitDepth d ∘ limitDepth D = limitDepth (min d D) := by
            funext c
            exact ih D c
          rw [Nat.succ_min_succ]
          simp only [limitDepth, List.map_map, hchildren]

/-- The first child of a name is the same one, cut at one level less. -/
theorem child?_limitDepth (name : String) (depth : Nat) (s : Spec) :
    (s.limitDepth (depth + 1)).child? name = (s.child? name).map (limitDepth depth) := by
  have hname : ((fun c : Spec => decide (c.name = name)) ∘ limitDepth depth) =
      fun c => decide (c.name = name) := by
    funext c
    rw [Function.comp_apply, limitDepth_name]
  rw [child?, child?, limitDepth, List.find?_map, hname]

end Cuts

section Walks

/-- The segments of a path that name fields. -/
def fieldCount (path : List String) : Nat := (path.filter fun segment => ¬ IsNumeric segment).length

theorem fieldCount_cons_of_numeric {segment : String} (h : IsNumeric segment)
    (path : List String) : fieldCount (segment :: path) = fieldCount path := by
  rw [fieldCount, List.filter_cons_of_neg (by simp [h]), fieldCount]

theorem fieldCount_cons_of_field {segment : String} (h : ¬ IsNumeric segment)
    (path : List String) : fieldCount (segment :: path) = fieldCount path + 1 := by
  rw [fieldCount, List.filter_cons_of_pos (by simp [h]), List.length_cons, fieldCount]

theorem descend?_cons_of_numeric {segment : String} (h : IsNumeric segment) (path : List String)
    (s : Spec) : descend? (segment :: path) s = descend? path s := by
  rw [descend?, if_pos ((isIndex_iff segment).mpr h)]

theorem descend?_cons_of_field {segment : String} (h : ¬ IsNumeric segment) (path : List String)
    (s : Spec) : descend? (segment :: path) s = (s.child? segment).bind (descend? path) := by
  rw [descend?, if_neg (mt (isIndex_iff segment).mp h)]

theorem descend?_append (p q : List String) (s : Spec) :
    descend? (p ++ q) s = (descend? p s).bind (descend? q) := by
  induction p generalizing s with
  | nil => rfl
  | cons segment p ih =>
      rw [List.cons_append]
      by_cases h : IsNumeric segment
      · rw [descend?_cons_of_numeric h, descend?_cons_of_numeric h]
        exact ih s
      · rw [descend?_cons_of_field h, descend?_cons_of_field h, Option.bind_assoc]
        apply Option.bind_congr
        intro c _
        exact ih c

/-- Each field of a path takes one level from the cut. -/
theorem descend?_limitDepth (path : List String) (depth : Nat) (s : Spec) :
    descend? path (s.limitDepth (fieldCount path + depth)) =
      (descend? path s).map (limitDepth depth) := by
  induction path generalizing s with
  | nil => simp [fieldCount, descend?]
  | cons segment path ih =>
      by_cases h : IsNumeric segment
      · rw [descend?_cons_of_numeric h, descend?_cons_of_numeric h, fieldCount_cons_of_numeric h]
        exact ih s
      · have hcount : fieldCount (segment :: path) + depth = fieldCount path + depth + 1 := by
          rw [fieldCount_cons_of_field h]
          omega
        rw [descend?_cons_of_field h, descend?_cons_of_field h, hcount, child?_limitDepth]
        cases s.child? segment with
        | none => rfl
        | some c => exact ih c

end Walks

section Projections

theorem project_eq_ok_iff {path : List String} {depth : Nat} {s u : Spec} :
    s.project path depth = .ok u ↔
      ∃ node, descend? path s = some node ∧ node.limitDepth depth = u := by
  rw [project]
  cases descend? path s <;> simp

/-- A cut that leaves the depth asked for behind the path is not seen. -/
theorem project_limitDepth {path : List String} {d D : Nat} (h : d + fieldCount path ≤ D)
    (s : Spec) : (s.limitDepth D).project path d = s.project path d := by
  obtain ⟨below, rfl⟩ : ∃ below, D = fieldCount path + below := ⟨D - fieldCount path, by omega⟩
  have hbelow : min d below = d := by omega
  rw [project, project, descend?_limitDepth]
  cases descend? path s with
  | none => rfl
  | some node =>
      rw [Option.map_some]
      dsimp only
      rw [limitDepth_limitDepth, hbelow]

/-- A shallower projection is a deeper one cut once more, and both fail alike. -/
theorem project_of_le {d D : Nat} (h : d ≤ D) (path : List String) (s : Spec) :
    s.project path d = (s.project path D).map (limitDepth d) := by
  rw [project, project]
  cases descend? path s with
  | none => rfl
  | some node =>
      dsimp only
      rw [Except.map, limitDepth_limitDepth, Nat.min_eq_left h]

/-- A projection along two paths is one along the second out of one along the first, if that one
has room for the fields of the second path and the depth asked for behind it. At every node the
shallower projection is the deeper one, cut once more. -/
theorem project_append (s : Spec) (p q : List String) {d D : Nat} (h : d + fieldCount q ≤ D) :
    (∀ u, s.project (p ++ q) d = .ok u ↔
      ∃ v, s.project p D = .ok v ∧ v.project q d = .ok u) ∧
    ∀ path, s.project path d = (s.project path D).map (limitDepth d) := by
  constructor
  · intro u
    constructor
    · intro hu
      obtain ⟨node, hnode, rfl⟩ := project_eq_ok_iff.mp hu
      rw [descend?_append, Option.bind_eq_some_iff] at hnode
      obtain ⟨middle, hmiddle, hnode⟩ := hnode
      refine ⟨middle.limitDepth D, project_eq_ok_iff.mpr ⟨middle, hmiddle, rfl⟩, ?_⟩
      rw [project_limitDepth h]
      exact project_eq_ok_iff.mpr ⟨node, hnode, rfl⟩
    · rintro ⟨v, hv, hu⟩
      obtain ⟨middle, hmiddle, rfl⟩ := project_eq_ok_iff.mp hv
      rw [project_limitDepth h] at hu
      obtain ⟨node, hnode, rfl⟩ := project_eq_ok_iff.mp hu
      refine project_eq_ok_iff.mpr ⟨node, ?_, rfl⟩
      rw [descend?_append, hmiddle]
      exact hnode
  · exact fun path => project_of_le (by omega) path s

/-- A spec with two fields of one name, of which only the second has ports. -/
def repeatedSpec : Spec :=
  let node (name : String) (children : List Spec) : Spec :=
    ⟨name, "object", false, "", "", children⟩
  node "pod"
    [node "spec" [node "containers" [node "image" []], node "containers" [node "ports" []]],
      node "spec" []]

/-- With one level for the fields of a container and one for the container itself, its first
namesake is found with its fields, and the second stays out of reach. -/
theorem project_append_repeatedSpec :
    1 + fieldCount ["0", "containers"] ≤ 2 ∧
      (∃ v, repeatedSpec.project ["spec"] 2 = .ok v ∧
        v.project ["0", "containers"] 1 =
          .ok ⟨"containers", "object", false, "", "", [⟨"image", "object", false, "", "", []⟩]⟩) ∧
      ¬ ∃ v u, repeatedSpec.project ["spec"] 2 = .ok v ∧
        v.project ["containers", "ports"] 0 = .ok u := by
  have hbudget : 1 + fieldCount ["0", "containers"] ≤ 2 := by decide
  have hports : 0 + fieldCount ["containers", "ports"] ≤ 2 := by decide
  refine ⟨hbudget, ?_, ?_⟩
  · exact ((project_append repeatedSpec ["spec"] ["0", "containers"] hbudget).1 _).mp rfl
  · rintro ⟨v, u, hv, hu⟩
    have hwhole := ((project_append repeatedSpec ["spec"] ["containers", "ports"] hports).1 u).mpr
      ⟨v, hv, hu⟩
    cases hwhole

end Projections

end ManifestForm.Spec
