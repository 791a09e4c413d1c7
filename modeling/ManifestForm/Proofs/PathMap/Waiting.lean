import ManifestForm.Proofs.PathMap.Fragments
import Mathlib.Data.List.Forall2

/-!
# Fragments that wait

While a tree is noticed, the fragments that wait are those of the closed children of its open nodes:
sorted by these nodes from the root inwards, and for each node in the order of the text. Each
fragment lies one segment below the node that its own node is a child of. Segments are guesses and
repeat, so it is only the length of a path that keeps apart what a closing node takes and what
stays: the fragments of the nodes around it have paths that are no longer than its own.
-/

namespace ManifestForm.PathMap

open Yaml (Node)

section OpenNodes

/-- A node that is open, with those of its children that have closed. -/
structure OpenNode where
  node : Node Location
  closed : List (Node Location)

/-- Nodes that are open together between two notices of a tree, from its root inwards. Each of them
comes right behind the closed children of the one around it. -/
inductive OpenIn : Node Location → List OpenNode → Prop
  | innermost {n : Node Location} {closed rest : List (Node Location)}
      (hn : n.children = closed ++ rest) : OpenIn n [⟨n, closed⟩]
  | around {n child : Node Location} {closed rest : List (Node Location)} {os : List OpenNode}
      (hn : n.children = closed ++ child :: rest) (hchild : OpenIn child os) :
      OpenIn n (⟨n, closed⟩ :: os)

/-- The notices that came until these nodes were open. -/
def taken (os : List OpenNode) : List Notice :=
  os.flatMap fun o => openingNotice o.node :: itemNotices o.closed

/-- The nodes that are open after a part of the notices of a tree. -/
inductive OpenAfter (n : Node Location) : List Notice → List OpenNode → Prop
  | unopened : OpenAfter n [] []
  | inside {os : List OpenNode} (h : OpenIn n os) : OpenAfter n (taken os) os
  | closed : OpenAfter n (nodeNotices n) []

theorem taken_singleton (o : OpenNode) :
    taken [o] = openingNotice o.node :: itemNotices o.closed := by
  simp [taken]

theorem taken_cons (o : OpenNode) (os : List OpenNode) :
    taken (o :: os) = openingNotice o.node :: (itemNotices o.closed ++ taken os) := by
  rw [taken, List.flatMap_cons, List.cons_append]
  rfl

theorem itemNotices_append (ns ns' : List (Node Location)) :
    itemNotices (ns ++ ns') = itemNotices ns ++ itemNotices ns' := by
  induction ns with
  | nil => rfl
  | cons n ns ih =>
      rw [List.cons_append, itemNotices_cons, itemNotices_cons, ih, List.append_assoc]

theorem itemNotices_singleton (n : Node Location) : itemNotices [n] = nodeNotices n := by
  rw [itemNotices_cons]
  exact List.append_nil _

/-- As long as nodes are open, more notices come. -/
theorem OpenIn.exists_next {n : Node Location} {os : List OpenNode} (h : OpenIn n os) :
    ∃ next behind, nodeNotices n = taken os ++ next :: behind := by
  induction h with
  | @innermost n closed rest hn =>
      obtain ⟨next, behind, hnext⟩ :=
        List.exists_cons_of_ne_nil (l := itemNotices rest ++ [closingNotice n]) (by simp)
      refine ⟨next, behind, ?_⟩
      rw [nodeNotices_eq, hn, itemNotices_append, List.append_assoc, hnext, taken_singleton]
      rfl
  | @around n child closed rest os hn hchild ih =>
      obtain ⟨next, behind, hnext⟩ := ih
      refine ⟨next, behind ++ (itemNotices rest ++ [closingNotice n]), ?_⟩
      rw [nodeNotices_eq, hn, itemNotices_append, itemNotices_cons, hnext, taken_cons]
      simp

/-- A part of the notices of several nodes ends between two of them or inside of one. -/
theorem exists_of_prefix_itemNotices {ns : List (Node Location)}
    (hns : ∀ n ∈ ns, ∀ part, part <+: nodeNotices n → ∃ os, OpenAfter n part os)
    {part : List Notice} (h : part <+: itemNotices ns) :
    ∃ closed rest, ns = closed ++ rest ∧
      (part = itemNotices closed ∨
        ∃ child behind os, rest = child :: behind ∧ OpenIn child os ∧
          part = itemNotices closed ++ taken os) := by
  induction ns generalizing part with
  | nil => exact ⟨[], [], rfl, Or.inl (List.prefix_nil.mp h)⟩
  | cons n ns ih =>
      obtain ⟨hn, hns⟩ := List.forall_mem_cons.mp hns
      obtain ⟨behind, h⟩ := h
      rw [itemNotices_cons] at h
      rcases List.append_eq_append_iff.mp h with ⟨left, hleft, -⟩ | ⟨part, rfl, hpart⟩
      · obtain ⟨os, hos⟩ := hn part ⟨left, hleft.symm⟩
        cases hos with
        | unopened => exact ⟨[], n :: ns, rfl, Or.inl rfl⟩
        | inside hos => exact ⟨[], n :: ns, rfl, Or.inr ⟨n, ns, os, rfl, hos, rfl⟩⟩
        | closed => exact ⟨[n], ns, rfl, Or.inl (itemNotices_singleton n).symm⟩
      · obtain ⟨closed, rest, rfl, rfl | ⟨child, behind, os, hrest, hos, rfl⟩⟩ :=
          ih hns ⟨behind, hpart.symm⟩
        · exact ⟨n :: closed, rest, rfl, Or.inl (itemNotices_cons n closed).symm⟩
        · refine ⟨n :: closed, rest, rfl, Or.inr ⟨child, behind, os, hrest, hos, ?_⟩⟩
          rw [itemNotices_cons, List.append_assoc]

theorem exists_openAfter (n : Node Location) {part : List Notice} (h : part <+: nodeNotices n) :
    ∃ os, OpenAfter n part os := by
  induction n using Node.inductionOnChildren generalizing part with
  | step n ih =>
      have hwhole := nodeNotices_eq n
      rw [hwhole] at h
      rcases List.prefix_cons_iff.mp h with rfl | ⟨part, rfl, hpart⟩
      · exact ⟨[], .unopened⟩
      rcases List.prefix_concat_iff.mp hpart with rfl | hpart
      · exact ⟨[], hwhole ▸ .closed⟩
      obtain ⟨closed, rest, hn, rfl | ⟨child, behind, os, rfl, hos, rfl⟩⟩ :=
        exists_of_prefix_itemNotices (fun c hc part => ih c hc) hpart
      · exact ⟨[⟨n, closed⟩], taken_singleton ⟨n, closed⟩ ▸ .inside (.innermost hn)⟩
      · exact ⟨⟨n, closed⟩ :: os, taken_cons ⟨n, closed⟩ os ▸ .inside (.around hn hos)⟩

/-- What closes is the innermost open node, and all its children have closed before. -/
theorem OpenIn.of_closing {n : Node Location} {os : List OpenNode} (h : OpenIn n os) {a : Notice}
    (ha : a.phase = .closing) (hnext : taken os ++ [a] <+: nodeNotices n) :
    ∃ outer o, os = outer ++ [o] ∧ o.closed = o.node.children ∧ a = closingNotice o.node := by
  induction h with
  | @innermost n closed rest hn =>
      rw [nodeNotices_eq, hn, itemNotices_append, taken_singleton] at hnext
      cases rest with
      | nil =>
          obtain rfl : a = closingNotice n := by
            simpa [itemNotices, Node.events.itemEvents] using hnext
          exact ⟨[], ⟨n, closed⟩, rfl, by simpa using hn.symm, rfl⟩
      | cons child rest =>
          rw [itemNotices_cons, nodeNotices_eq] at hnext
          obtain rfl : a = openingNotice child := by simpa using hnext
          cases ha
  | @around n child closed rest os hn hchild ih =>
      -- The child has not closed, so the next notice is still one of its own.
      obtain ⟨next, behind, hchild⟩ := hchild.exists_next
      rw [nodeNotices_eq, hn, itemNotices_append, itemNotices_cons, taken_cons, hchild] at hnext
      obtain rfl : a = next := by simpa using hnext
      obtain ⟨outer, o, rfl, ho, hclosing⟩ := ih ⟨behind, by simp [hchild]⟩
      exact ⟨⟨n, closed⟩ :: outer, o, rfl, ho, hclosing⟩

end OpenNodes

section ChildFragments

/-- The fragment that a closed child of the node at a path has left. A text is its own last
segment. -/
structure IsLeftBy (path : Path) (n : Node Location) (f : Fragment) : Prop where
  path_eq : ∃ s, f.path = path ++ [n.text?.getD s]
  location_eq : f.location = n.pos

/-- The fragments that the closed children of open nodes have left. The first of these nodes lies
one segment below the path `around`, and each of the others one segment below the node around it. -/
inductive Waits : Path → Path → List OpenNode → List Fragment → Prop
  | nil {around : Path} : Waits around [] [] []
  | cons {around path : Path} {s : String} {o : OpenNode} {os : List OpenNode}
      {own fs : List Fragment} (hown : List.Forall₂ (IsLeftBy (around ++ [s])) o.closed own)
      (h : Waits (around ++ [s]) path os fs) : Waits around (s :: path) (o :: os) (own ++ fs)

theorem forall₂_isLeftBy_ofItems (path : Path) (s : String) (ns : List (Node Location)) :
    List.Forall₂ (IsLeftBy path) ns (fragment.ofItems path s ns) := by
  induction ns generalizing s with
  | nil => exact .nil
  | cons n ns ih =>
      exact .cons ⟨⟨s, fragment_path path s n⟩, fragment_location path s n⟩ (ih (lastText s n))

theorem exists_path_of_forall₂ {path : Path} {ns : List (Node Location)} {fs : List Fragment}
    (h : List.Forall₂ (IsLeftBy path) ns fs) {f : Fragment} (hf : f ∈ fs) :
    ∃ s, f.path = path ++ [s] := by
  induction h with
  | nil => cases hf
  | cons hleft _ ih =>
      rcases List.mem_cons.mp hf with rfl | hf
      · obtain ⟨s, hs⟩ := hleft.path_eq
        exact ⟨_, hs⟩
      · exact ih hf

theorem Waits.length_le {around path : Path} {os : List OpenNode} {fs : List Fragment}
    (h : Waits around path os fs) {f : Fragment} (hf : f ∈ fs) :
    f.path.length ≤ around.length + path.length + 1 := by
  induction h with
  | nil => cases hf
  | cons hown h ih =>
      rw [List.length_cons]
      rcases List.mem_append.mp hf with hf | hf
      · obtain ⟨t, ht⟩ := exists_path_of_forall₂ hown hf
        rw [ht, List.length_append, List.length_append, List.length_singleton,
          List.length_singleton]
        omega
      · have hle := ih hf
        rw [List.length_append, List.length_singleton] at hle
        omega

/-- The fragments of the innermost open node are the last ones. -/
theorem Waits.exists_of_append {around path : Path} {outer : List OpenNode} {o : OpenNode}
    {fs : List Fragment} (h : Waits around path (outer ++ [o]) fs) :
    ∃ outerPath s others own, path = outerPath ++ [s] ∧ fs = others ++ own ∧
      Waits around outerPath outer others ∧
      List.Forall₂ (IsLeftBy (around ++ path)) o.closed own := by
  induction outer generalizing around path fs with
  | nil =>
      cases h with
      | @cons _ _ s _ _ own _ hown h =>
          cases h
          exact ⟨[], s, [], own, rfl, List.append_nil own, .nil, hown⟩
  | cons p outer ih =>
      cases h with
      | @cons _ path s _ _ own fs hown h =>
          obtain ⟨outerPath, t, others, inner, rfl, rfl, hothers, hinner⟩ := ih h
          refine ⟨s :: outerPath, t, own ++ others, inner, rfl, ?_, .cons hown hothers, ?_⟩
          · rw [List.append_assoc]
          · rwa [List.append_assoc] at hinner

end ChildFragments

section Reading

/-- A state between `m` and the state once these nodes, open inside of `m`, have closed. -/
structure Reaches (m : PathMap) (os : List OpenNode) (m' : PathMap) : Prop where
  opened : m'.opened = (os.map fun o => o.node.pos).reverse ++ m.opened
  waits : ∃ path fs, m'.path = m.path ++ path ∧ m'.fragments = m.fragments ++ fs ∧
    Waits m.path path os fs

/-- A node has opened, and some of its children have closed. -/
theorem reaches_extend (m : PathMap) (o : OpenNode) (s : String) :
    m.Reaches [o] ((m.openNode o.node.pos).extend s
      (fragment.ofItems (m.path ++ [m.lastScalar]) m.lastScalar o.closed)) where
  opened := rfl
  waits := by
    have hown := forall₂_isLeftBy_ofItems (m.path ++ [m.lastScalar]) m.lastScalar o.closed
    exact ⟨[m.lastScalar], _, rfl, rfl, List.append_nil (fragment.ofItems ..) ▸ .cons hown .nil⟩

theorem Reaches.trans {m m' m'' : PathMap} {o : OpenNode} {os : List OpenNode}
    (h : m.Reaches [o] m') (h' : m'.Reaches os m'') : m.Reaches (o :: os) m'' where
  opened := by
    rw [h'.opened, h.opened]
    simp
  waits := by
    obtain ⟨_, _, hpath, hfs, hwaits⟩ := h.waits
    obtain ⟨path, fs, hpath', hfs', hwaits'⟩ := h'.waits
    cases hwaits with
    | @cons _ _ s _ _ own _ hown hnil =>
        cases hnil
        rw [List.append_nil] at hfs
        rw [hpath] at hwaits' hpath'
        refine ⟨s :: path, own ++ fs, ?_, ?_, .cons hown hwaits'⟩
        · rw [hpath', List.append_assoc]; rfl
        · rw [hfs', hfs, List.append_assoc]

theorem OpenIn.reaches {n : Node Location} {os : List OpenNode} (h : OpenIn n os) (m : PathMap)
    (hm : ∀ f ∈ m.fragments, f.path.length ≤ m.path.length + 1) :
    m.Reaches os (m.recordAll (taken os)) := by
  have hrecord (o : OpenNode) (m : PathMap)
      (hm : ∀ f ∈ m.fragments, f.path.length ≤ m.path.length + 1) :
      m.recordAll (openingNotice o.node :: itemNotices o.closed) =
        (m.openNode o.node.pos).extend (lastText.ofItems m.lastScalar o.closed)
          (fragment.ofItems (m.path ++ [m.lastScalar]) m.lastScalar o.closed) :=
    recordAll_itemNotices o.closed (m.openNode o.node.pos) (inside_openNode o.node.pos hm)
  induction h generalizing m with
  | innermost =>
      rw [taken_singleton, hrecord _ m hm]
      exact reaches_extend m _ _
  | around _ _ ih =>
      rw [taken_cons, ← List.cons_append, recordAll_append, hrecord _ m hm]
      refine (reaches_extend m _ _).trans (ih _ ?_)
      refine ((inside_openNode _ hm).extend _ _ fun f hf => ?_).fragments_le
      obtain ⟨t, ht⟩ := ofItems_path hf
      rw [ht, List.length_append, openNode_path, List.length_singleton]

/-- When the root has closed nothing waits. -/
theorem recordAll_nodeNotices_empty (n : Node Location) :
    (empty.recordAll (nodeNotices n)).path = [] ∧ (empty.recordAll (nodeNotices n)).opened = [] ∧
      (empty.recordAll (nodeNotices n)).fragments = [] := by
  cases hn : n.text? with
  | some text => rw [recordAll_empty_of_text n hn]; exact ⟨rfl, rfl, rfl⟩
  | none => rw [recordAll_empty_of_collection n hn]; exact ⟨rfl, rfl, rfl⟩

theorem OpenAfter.reaches {n : Node Location} {part : List Notice} {os : List OpenNode}
    (h : OpenAfter n part os) : empty.Reaches os (empty.recordAll part) := by
  cases h with
  | unopened => exact ⟨rfl, [], [], rfl, rfl, .nil⟩
  | inside h => exact h.reaches empty (List.forall_mem_nil _)
  | closed =>
      obtain ⟨hpath, hopened, hfragments⟩ := recordAll_nodeNotices_empty n
      exact ⟨hopened, [], [], hpath, hfragments, .nil⟩

/-- The innermost open node takes the fragments of its own children, all of them, the last one
first. The fragments of the nodes around it stay as they are. -/
structure TakesOwn (m : PathMap) (outer : List OpenNode) (o : OpenNode) : Prop where
  complete : o.closed = o.node.children
  takes : ∃ others own, m.fragments = others ++ own ∧ m.takeBelow = (own.reverse, others) ∧
    Waits [] m.path.dropLast outer others ∧
    List.Forall₂ (IsLeftBy m.path) o.node.children own

theorem Waits.takesOwn {m : PathMap} {outer : List OpenNode} {o : OpenNode}
    (h : Waits [] m.path (outer ++ [o]) m.fragments) (ho : o.closed = o.node.children) :
    m.TakesOwn outer o where
  complete := ho
  takes := by
    obtain ⟨outerPath, s, others, own, hpath, hfragments, hothers, hown⟩ := h.exists_of_append
    rw [List.nil_append, ho] at hown
    refine ⟨others, own, hfragments, ?_, by rwa [hpath, List.dropLast_concat], hown⟩
    -- The others may have the same segments, but their paths are no longer than that of the node.
    refine takeBelow_eq hfragments (fun f hf => ?_) fun f hf => exists_path_of_forall₂ hown hf
    rw [hpath, List.length_append, List.length_singleton]
    simpa using hothers.length_le hf

/-- After each part of the notices of a tree, whatever its keys are, just the fragments of the
closed children of its open nodes wait. A closing node finds those of its own children and no
others, and when the root has closed nothing is left. -/
theorem fragments_of_open_nodes (n : Node Location) {part : List Notice}
    (hpart : part <+: nodeNotices n) :
    let m := empty.recordAll part
    (∃ os, OpenAfter n part os) ∧
      (∀ os, OpenAfter n part os →
        Waits [] m.path os m.fragments ∧ m.opened = (os.map fun o => o.node.pos).reverse ∧
          ∀ kind l, part ++ [⟨.closing, kind, l⟩] <+: nodeNotices n →
            ∃ outer o, os = outer ++ [o] ∧ kind = nodeKind o.node ∧ m.TakesOwn outer o) ∧
      (part = nodeNotices n → m.path = [] ∧ m.opened = [] ∧ m.fragments = []) := by
  intro m
  refine ⟨exists_openAfter n hpart, fun os hos => ?_, ?_⟩
  · obtain ⟨hopened, path, fs, hpath, hfragments, hwaits⟩ := hos.reaches
    have hwaits : Waits [] m.path os m.fragments := by
      rw [hpath, hfragments]
      exact hwaits
    refine ⟨hwaits, hopened.trans (List.append_nil _), fun kind l hnext => ?_⟩
    cases hos with
    | unopened =>
        rw [nodeNotices_eq] at hnext
        cases (List.cons_prefix_cons.mp hnext).1
    | inside hos =>
        obtain ⟨outer, o, rfl, ho, hclosing⟩ := hos.of_closing rfl hnext
        exact ⟨outer, o, rfl, congrArg Notice.kind hclosing, hwaits.takesOwn ho⟩
    | closed =>
        have hle := hnext.length_le
        rw [List.length_append, List.length_singleton] at hle
        omega
  · rintro rfl
    exact recordAll_nodeNotices_empty n

/-- A mapping whose texts are all the same: the first key is a sequence, and the second value is a
mapping. -/
def sameTexts : Node Location :=
  .mapping ⟨0, 0, 0⟩ none
    [(.sequence ⟨0, 2, 2⟩ none [.scalar ⟨0, 3, 3⟩ "a" .plain none none] ⟨0, 4, 4⟩,
      .scalar ⟨1, 2, 8⟩ "a" .plain none none),
      (.scalar ⟨2, 0, 10⟩ "a" .plain none none,
        .mapping ⟨3, 1, 14⟩ none
          [(.scalar ⟨3, 1, 14⟩ "a" .plain none none, .scalar ⟨3, 4, 17⟩ "a" .plain none none)]
          ⟨4, 0, 19⟩)]
    ⟨4, 0, 19⟩

/-- Before the inner mapping closes, three children of the outer one wait and its own two. -/
theorem fragments_of_sameTexts :
    let part := (nodeNotices sameTexts).take 14
    part <+: nodeNotices sameTexts ∧
      (empty.recordAll part).fragments.map Fragment.path =
        [["", ""], ["", "a"], ["", "a"], ["", "a", "a"], ["", "a", "a"]] ∧
      ∃ outer o, OpenAfter sameTexts part (outer ++ [o]) ∧
        (empty.recordAll part).TakesOwn outer o := by
  intro part
  have hpart : part <+: nodeNotices sameTexts := List.take_prefix ..
  refine ⟨hpart, by decide, ?_⟩
  obtain ⟨⟨os, hos⟩, hwaits, -⟩ := fragments_of_open_nodes sameTexts hpart
  obtain ⟨outer, o, rfl, -, htakes⟩ := (hwaits os hos).2.2 .mapping ⟨4, 0, 19⟩ (by decide)
  exact ⟨outer, o, hos, htakes⟩

end Reading

end ManifestForm.PathMap
