import ManifestForm.Proofs.Yaml.Completion
import ManifestForm.Proofs.Yaml.Positions

/-!
# The descent ends

No function of the grammar gives tokens back, and every call is made behind a token that has been
taken or by a function of higher rank on the same tokens. So four levels for each token, and those
of the rank, are enough: deeper descents give the same nodes. A document takes at least its mark,
so more documents than tokens need not be tried. What a text says therefore depends on none of the
bounds with which it is read.
-/

namespace ManifestForm.Yaml

namespace Reading

section Tokens

variable {r : Reading}

/-- A token that is looked at is there. -/
theorem yields_look (r : Reading) :
    Yields r.look fun x => 0 < r.tokens.length ∧ x.2.tokens.length = r.tokens.length := by
  rw [look]
  split
  · exact yields_error _
  · next d ds htokens =>
      refine yields_ok ⟨?_, rfl⟩
      rw [htokens]
      exact Nat.succ_pos _

/-- A token looked at stays. -/
theorem look_look (r : Reading) : Yields r.look fun x => x.2.look = .ok x := by
  rw [look]
  split
  · exact yields_error _
  · next d ds htokens =>
      apply yields_ok
      rw [look, htokens]

theorem length_tail (r : Reading) : r.tail.tokens.length = r.tokens.length - 1 := List.length_drop

/-- The property of marks does not matter where only the number of tokens does. -/
theorem keeps_length (r : Reading) : r.Keeps (fun _ => True) r.tokens.length where
  tokens := fun _ _ => ⟨trivial, trivial⟩
  length := Nat.le_refl _
  reach := trivial

/-- A reading behind another one has no more tokens. -/
def IsBehind {α : Type} (r : Reading) (x : α × Reading) : Prop :=
  x.2.tokens.length ≤ r.tokens.length

/-- Properties take tokens off and add none. -/
theorem length_properties_le (r : Reading) :
    Yields r.properties fun x => x.2.2.tokens.length ≤ r.tokens.length :=
  r.keeps_length.properties.mono fun _ hx => hx.length

/-- No node gives tokens back. -/
theorem isBehind_node (fuel : Nat) (block indentless : Bool) (r : Reading) :
    Yields (node fuel block indentless r) r.IsBehind :=
  ((grammarKeeps _ _ fuel).node block indentless r r.keeps_length).mono fun _ hx => hx.2.length

theorem isBehind_flowValue (fuel : Nat) (r : Reading) :
    Yields (flowValue fuel r) r.IsBehind :=
  ((grammarKeeps _ _ fuel).flowValue r r.keeps_length).mono fun _ hx => hx.2.length

theorem isBehind_blockValue (fuel : Nat) (r : Reading) :
    Yields (blockValue fuel r) r.IsBehind :=
  ((grammarKeeps _ _ fuel).blockValue r r.keeps_length).mono fun _ hx => hx.2.length

/-- At its indicator a value takes a token. -/
theorem length_blockValue_lt {t : Lexeme} (hlook : r.look = .ok (t, r))
    (hvalue : t.token = .value) (fuel : Nat) :
    Yields (blockValue fuel r) fun x => x.2.tokens.length < r.tokens.length := by
  obtain ⟨hpos, -⟩ := (yields_look r).of_ok hlook
  have htail := length_tail r
  cases fuel with
  | zero => exact yields_error _
  | succ fuel =>
      have hsame : Yields r.look fun x => x = (t, r) := by
        rw [hlook]
        exact yields_ok rfl
      rw [blockValue]
      apply hsame.bind
      rintro _ rfl
      dsimp only
      split
      · apply (yields_look r.tail).bind
        rintro ⟨u, r'⟩ ⟨-, hlength⟩
        have hlt : r'.tokens.length < r.tokens.length := by
          dsimp only at hlength
          omega
        apply yields_ite
        · exact yields_ok hlt
        · exact (isBehind_node fuel true true r').mono fun _ hx => Nat.lt_of_le_of_lt hx hlt
      · next hother => exact absurd hvalue hother

theorem isBehind_pair (fuel : Nat) (start : Mark) (r : Reading) :
    Yields (pair fuel start r) r.IsBehind :=
  ((grammarKeeps _ _ fuel).pair start r trivial r.keeps_length).mono fun _ hx => hx.2.length

end Tokens

section Settled

/-- The functions of the grammar do not tell two depths apart that cover the tokens. -/
structure Settled (fuel fuel' : Nat) : Prop where
  node : ∀ block indentless r, 4 * r.tokens.length + 3 ≤ min fuel fuel' →
    node fuel block indentless r = node fuel' block indentless r
  content : ∀ block indentless anchor tag r, 4 * r.tokens.length + 2 ≤ min fuel fuel' →
    content fuel block indentless anchor tag r = content fuel' block indentless anchor tag r
  blockItems : ∀ r, 4 * r.tokens.length + 1 ≤ min fuel fuel' →
    blockItems fuel r = blockItems fuel' r
  indentlessItems : ∀ r, 4 * r.tokens.length + 1 ≤ min fuel fuel' →
    indentlessItems fuel r = indentlessItems fuel' r
  blockEntries : ∀ r, 4 * r.tokens.length + 2 ≤ min fuel fuel' →
    blockEntries fuel r = blockEntries fuel' r
  blockValue : ∀ r, 4 * r.tokens.length + 1 ≤ min fuel fuel' →
    blockValue fuel r = blockValue fuel' r
  flowEntries : ∀ first r, 4 * r.tokens.length + 1 + (if first then 3 else 0) ≤ min fuel fuel' →
    flowEntries fuel first r = flowEntries fuel' first r
  flowValue : ∀ r, 4 * r.tokens.length + 1 ≤ min fuel fuel' →
    flowValue fuel r = flowValue fuel' r
  flowItems : ∀ first r, 4 * r.tokens.length + 1 + (if first then 3 else 0) ≤ min fuel fuel' →
    flowItems fuel first r = flowItems fuel' first r
  pair : ∀ start r, 4 * r.tokens.length + 4 ≤ min fuel fuel' →
    pair fuel start r = pair fuel' start r

variable {fuel fuel' : Nat} {r : Reading}

/-- A node, or what stands for one that has been left out, with what is read behind it. -/
theorem absent_or_congr {β : Type} {c : Prop} [Decidable c] {absent : Node Mark × Reading}
    {x y : Except Fault (Node Mark × Reading)} {f g : Node Mark × Reading → Except Fault β}
    (habsent : r.IsBehind absent) (hxy : x = y) (hx : Yields x r.IsBehind)
    (hf : ∀ a, r.IsBehind a → f a = g a) :
    (if c then pure absent >>= f else x >>= f) = if c then pure absent >>= g else y >>= g := by
  apply ite_congr rfl
  · intro _
    exact hf absent habsent
  · intro _
    rw [← hxy]
    exact hx.bind_congr hf

namespace Settled

/-- A node calls the reader of its content with one call less. -/
theorem node_succ (h : Settled fuel fuel') (block indentless : Bool)
    (hfuel : 4 * r.tokens.length + 3 ≤ min (fuel + 1) (fuel' + 1)) :
    Reading.node (fuel + 1) block indentless r = Reading.node (fuel' + 1) block indentless r := by
  rw [Reading.node, Reading.node]
  apply (yields_look r).bind_congr
  rintro ⟨t, r⟩ ⟨hpos, hlength⟩
  dsimp only at hlength ⊢
  split
  · rfl
  · apply (length_properties_le r).bind_congr
    rintro ⟨anchor, tag, r⟩ hle
    dsimp only at hle ⊢
    exact h.content block indentless anchor tag r (by omega)

/-- The content of a node calls the readers of items and entries. -/
theorem content_succ (h : Settled fuel fuel') (block indentless : Bool) (anchor : Option Nat)
    (tag : Option Tag) (hfuel : 4 * r.tokens.length + 2 ≤ min (fuel + 1) (fuel' + 1)) :
    Reading.content (fuel + 1) block indentless anchor tag r =
      Reading.content (fuel' + 1) block indentless anchor tag r := by
  rw [Reading.content, Reading.content]
  apply (yields_look r).bind_congr
  rintro ⟨t, r⟩ ⟨hpos, hlength⟩
  have htail := length_tail r
  dsimp only at hlength ⊢
  rw [h.indentlessItems r (by omega), h.flowItems true r.tail (by simp only [if_true]; omega),
    h.flowEntries true r.tail (by simp only [if_true]; omega), h.blockItems r.tail (by omega),
    h.blockEntries r.tail (by omega)]

/-- Behind each dash an item is read from fewer tokens. -/
theorem blockItems_succ (h : Settled fuel fuel')
    (hfuel : 4 * r.tokens.length + 1 ≤ min (fuel + 1) (fuel' + 1)) :
    Reading.blockItems (fuel + 1) r = Reading.blockItems (fuel' + 1) r := by
  rw [Reading.blockItems, Reading.blockItems]
  apply (yields_look r).bind_congr
  rintro ⟨t, r⟩ ⟨hpos, hlength⟩
  have htail := length_tail r
  dsimp only at hlength ⊢
  split
  · rfl
  · apply (yields_look r.tail).bind_congr
    rintro ⟨t, r⟩ ⟨-, hlength'⟩
    dsimp only at hlength' ⊢
    apply absent_or_congr (Nat.le_refl _) (h.node true false r (by omega)) (isBehind_node _ _ _ r)
    rintro ⟨n, r⟩ hr
    dsimp only [IsBehind] at hr ⊢
    rw [h.blockItems r (by omega)]
  · rfl

theorem indentlessItems_succ (h : Settled fuel fuel')
    (hfuel : 4 * r.tokens.length + 1 ≤ min (fuel + 1) (fuel' + 1)) :
    Reading.indentlessItems (fuel + 1) r = Reading.indentlessItems (fuel' + 1) r := by
  rw [Reading.indentlessItems, Reading.indentlessItems]
  apply (yields_look r).bind_congr
  rintro ⟨t, r⟩ ⟨hpos, hlength⟩
  have htail := length_tail r
  dsimp only at hlength ⊢
  split
  · apply (yields_look r.tail).bind_congr
    rintro ⟨t, r⟩ ⟨-, hlength'⟩
    dsimp only at hlength' ⊢
    apply absent_or_congr (Nat.le_refl _) (h.node true false r (by omega)) (isBehind_node _ _ _ r)
    rintro ⟨n, r⟩ hr
    dsimp only [IsBehind] at hr ⊢
    rw [h.indentlessItems r (by omega)]
  · rfl

/-- Behind each key or value an entry is read from fewer tokens. -/
theorem blockEntries_succ (h : Settled fuel fuel')
    (hfuel : 4 * r.tokens.length + 2 ≤ min (fuel + 1) (fuel' + 1)) :
    Reading.blockEntries (fuel + 1) r = Reading.blockEntries (fuel' + 1) r := by
  rw [Reading.blockEntries, Reading.blockEntries]
  apply ((yields_look r).and (look_look r)).bind_congr
  rintro ⟨t, r⟩ ⟨⟨hpos, hlength⟩, hlook⟩
  have htail := length_tail r
  dsimp only at hlength ⊢
  split
  · rfl
  · apply (yields_look r.tail).bind_congr
    rintro ⟨t, r⟩ ⟨-, hlength'⟩
    dsimp only at hlength' ⊢
    apply absent_or_congr (Nat.le_refl _) (h.node true true r (by omega)) (isBehind_node _ _ _ r)
    rintro ⟨k, r⟩ hr
    dsimp only [IsBehind] at hr ⊢
    rw [h.blockValue r (by omega)]
    apply (isBehind_blockValue _ r).bind_congr
    rintro ⟨v, r⟩ hr
    dsimp only [IsBehind] at hr ⊢
    rw [h.blockEntries r (by omega)]
  · next hvalue =>
      rw [h.blockValue r (by omega)]
      apply (length_blockValue_lt hlook hvalue fuel').bind_congr
      rintro ⟨v, r⟩ hlt
      dsimp only at hlt ⊢
      rw [h.blockEntries r (by omega)]
  · rfl

theorem blockValue_succ (h : Settled fuel fuel')
    (hfuel : 4 * r.tokens.length + 1 ≤ min (fuel + 1) (fuel' + 1)) :
    Reading.blockValue (fuel + 1) r = Reading.blockValue (fuel' + 1) r := by
  rw [Reading.blockValue, Reading.blockValue]
  apply (yields_look r).bind_congr
  rintro ⟨t, r⟩ ⟨hpos, hlength⟩
  have htail := length_tail r
  dsimp only at hlength ⊢
  split
  · apply (yields_look r.tail).bind_congr
    rintro ⟨t, r⟩ ⟨-, hlength'⟩
    dsimp only at hlength' ⊢
    rw [h.node true true r (by omega)]
  · rfl

/-- What is left behind the comma, or where there is none before the first member. -/
theorem length_next (first : Bool) (hpos : 0 < r.tokens.length)
    (hfuel : 4 * r.tokens.length + 1 + (if first then 3 else 0) ≤ min (fuel + 1) (fuel' + 1)) :
    4 * (if first = true then r else r.tail).tokens.length + 3 ≤ min fuel fuel' := by
  have htail := length_tail r
  cases first with
  | false =>
      simp only [Bool.false_eq_true, if_false] at hfuel ⊢
      omega
  | true =>
      simp only [if_true] at hfuel ⊢
      omega

theorem moreEntries (h : Settled fuel fuel') (hfuel : 4 * r.tokens.length + 1 ≤ min fuel fuel') :
    Reading.flowEntries fuel false r = Reading.flowEntries fuel' false r :=
  h.flowEntries false r hfuel

theorem moreItems (h : Settled fuel fuel') (hfuel : 4 * r.tokens.length + 1 ≤ min fuel fuel') :
    Reading.flowItems fuel false r = Reading.flowItems fuel' false r :=
  h.flowItems false r hfuel

/-- Only the first entry of a flow mapping needs no comma before it. -/
theorem flowEntries_succ (h : Settled fuel fuel') (first : Bool)
    (hfuel : 4 * r.tokens.length + 1 + (if first then 3 else 0) ≤ min (fuel + 1) (fuel' + 1)) :
    Reading.flowEntries (fuel + 1) first r = Reading.flowEntries (fuel' + 1) first r := by
  rw [Reading.flowEntries, Reading.flowEntries]
  apply (yields_look r).bind_congr
  rintro ⟨t, r⟩ ⟨hpos, hlength⟩
  dsimp only at hlength ⊢
  apply ite_congr rfl (fun _ => rfl)
  intro _
  apply ite_congr rfl (fun _ => rfl)
  intro _
  rw [← hlength] at hpos hfuel
  have hnext := length_next first hpos hfuel
  apply (yields_look _).bind_congr
  rintro ⟨u, r⟩ ⟨hpos, hlength⟩
  have htail := length_tail r
  dsimp only at hlength ⊢
  split
  · rfl
  · apply (yields_look r.tail).bind_congr
    rintro ⟨w, r⟩ ⟨-, hlength'⟩
    dsimp only at hlength' ⊢
    apply absent_or_congr (Nat.le_refl _) (h.node false false r (by omega)) (isBehind_node _ _ _ r)
    rintro ⟨k, r⟩ hr
    dsimp only [IsBehind] at hr ⊢
    rw [h.flowValue r (by omega)]
    apply (isBehind_flowValue _ r).bind_congr
    rintro ⟨v, r⟩ hr
    dsimp only [IsBehind] at hr ⊢
    rw [h.moreEntries (by omega)]
  · rw [h.flowValue r (by omega)]
    apply (isBehind_flowValue _ r).bind_congr
    rintro ⟨v, r⟩ hr
    dsimp only [IsBehind] at hr ⊢
    rw [h.moreEntries (by omega)]
  · rw [h.node false false r (by omega)]
    apply (isBehind_node _ _ _ r).bind_congr
    rintro ⟨k, r⟩ hr
    apply (yields_look r).bind_congr
    rintro ⟨w, r⟩ ⟨-, hlength'⟩
    dsimp only [IsBehind] at hr hlength' ⊢
    rw [h.moreEntries (by omega)]

theorem flowValue_succ (h : Settled fuel fuel')
    (hfuel : 4 * r.tokens.length + 1 ≤ min (fuel + 1) (fuel' + 1)) :
    Reading.flowValue (fuel + 1) r = Reading.flowValue (fuel' + 1) r := by
  rw [Reading.flowValue, Reading.flowValue]
  apply (yields_look r).bind_congr
  rintro ⟨t, r⟩ ⟨hpos, hlength⟩
  have htail := length_tail r
  dsimp only at hlength ⊢
  split
  · apply (yields_look r.tail).bind_congr
    rintro ⟨u, r⟩ ⟨-, hlength'⟩
    dsimp only at hlength' ⊢
    rw [h.node false false r (by omega)]
  · rfl

theorem flowItems_succ (h : Settled fuel fuel') (first : Bool)
    (hfuel : 4 * r.tokens.length + 1 + (if first then 3 else 0) ≤ min (fuel + 1) (fuel' + 1)) :
    Reading.flowItems (fuel + 1) first r = Reading.flowItems (fuel' + 1) first r := by
  rw [Reading.flowItems, Reading.flowItems]
  apply (yields_look r).bind_congr
  rintro ⟨t, r⟩ ⟨hpos, hlength⟩
  dsimp only at hlength ⊢
  apply ite_congr rfl (fun _ => rfl)
  intro _
  apply ite_congr rfl (fun _ => rfl)
  intro _
  rw [← hlength] at hpos hfuel
  have hnext := length_next first hpos hfuel
  apply (yields_look _).bind_congr
  rintro ⟨u, r⟩ ⟨hpos, hlength⟩
  have htail := length_tail r
  dsimp only at hlength ⊢
  split
  · rfl
  · rw [h.pair u.mark r.tail (by omega)]
    apply (isBehind_pair _ _ r.tail).bind_congr
    rintro ⟨n, r⟩ hr
    dsimp only [IsBehind] at hr ⊢
    rw [h.moreItems (by omega)]
  · rw [h.node false false r (by omega)]
    apply (isBehind_node _ _ _ r).bind_congr
    rintro ⟨n, r⟩ hr
    dsimp only [IsBehind] at hr ⊢
    rw [h.moreItems (by omega)]

/-- A pair reads its key and its value from the tokens behind its start. -/
theorem pair_succ (h : Settled fuel fuel') (start : Mark)
    (hfuel : 4 * r.tokens.length + 4 ≤ min (fuel + 1) (fuel' + 1)) :
    Reading.pair (fuel + 1) start r = Reading.pair (fuel' + 1) start r := by
  rw [Reading.pair, Reading.pair]
  apply (yields_look r).bind_congr
  rintro ⟨t, r⟩ ⟨hpos, hlength⟩
  have htail := length_tail r
  dsimp only at hlength ⊢
  have habsent : r.IsBehind (Node.absent t.mark, r.tail) := by
    dsimp only [IsBehind]
    omega
  apply absent_or_congr habsent (h.node false false r (by omega)) (isBehind_node _ _ _ r)
  rintro ⟨k, r⟩ hr
  apply (yields_look r).bind_congr
  rintro ⟨t, r⟩ ⟨hpos, hlength'⟩
  have htail := length_tail r
  dsimp only [IsBehind] at hr hlength' ⊢
  split
  · apply (yields_look r.tail).bind_congr
    rintro ⟨u, r⟩ ⟨-, hlength''⟩
    dsimp only at hlength'' ⊢
    exact absent_or_congr (Nat.le_refl _) (h.node false false r (by omega))
      (isBehind_node _ _ _ r) fun _ _ => rfl
  · rfl

end Settled

/-- Beyond four calls for each token and four more, calls change nothing. -/
theorem settled (fuel fuel' : Nat) : Settled fuel fuel' := by
  induction fuel generalizing fuel' with
  | zero => constructor <;> intros <;> omega
  | succ fuel ih =>
      cases fuel' with
      | zero => constructor <;> intros <;> omega
      | succ fuel' =>
          have h := ih fuel'
          constructor
          · exact fun block indentless r hr => h.node_succ block indentless hr
          · exact fun block indentless anchor tag r hr =>
              h.content_succ block indentless anchor tag hr
          · exact fun r hr => h.blockItems_succ hr
          · exact fun r hr => h.indentlessItems_succ hr
          · exact fun r hr => h.blockEntries_succ hr
          · exact fun r hr => h.blockValue_succ hr
          · exact fun first r hr => h.flowEntries_succ first hr
          · exact fun r hr => h.flowValue_succ hr
          · exact fun first r hr => h.flowItems_succ first hr
          · exact fun start r hr => h.pair_succ start hr

end Settled

section Documents

variable {fuel fuel' : Nat} {r : Reading}

theorem length_dropWhile_le (test : Token → Bool) (r : Reading) :
    (r.dropWhile test).tokens.length ≤ r.tokens.length :=
  (List.dropWhile_sublist _).length_le

/-- The root of a document is read behind its mark. -/
theorem explicitDocument_eq (hfuel : 4 * r.tokens.length + 3 ≤ min fuel fuel') :
    r.explicitDocument fuel = r.explicitDocument fuel' := by
  have hdropped := length_dropWhile_le (· = .directive) r
  rw [explicitDocument, explicitDocument]
  apply (yields_look _).bind_congr
  rintro ⟨t, r⟩ ⟨hpos, hlength⟩
  have htail := length_tail r
  dsimp only at hlength ⊢
  split
  · apply (yields_look r.tail).bind_congr
    rintro ⟨u, r⟩ ⟨-, hlength'⟩
    dsimp only at hlength' ⊢
    have hnode := (settled fuel fuel').node true false { r with anchors := [] }
      (by dsimp only; omega)
    rw [hnode]
  · rfl

theorem document_eq (first : Bool) (hfuel : 4 * r.tokens.length + 3 ≤ min fuel fuel') :
    r.document fuel first = r.document fuel' first := by
  have hnext : (if first = true then r else r.dropWhile (· = .documentEnd)).tokens.length ≤
      r.tokens.length := by
    split
    · exact Nat.le_refl _
    · exact length_dropWhile_le _ r
  rw [document, document]
  apply (yields_look _).bind_congr
  rintro ⟨t, r⟩ ⟨hpos, hlength⟩
  dsimp only at hlength ⊢
  have hnode := (settled fuel fuel').node true false { r with anchors := [] }
    (by dsimp only; omega)
  have hexplicit : r.explicitDocument fuel = r.explicitDocument fuel' :=
    explicitDocument_eq (by omega)
  rw [hnode, hexplicit]

/-- A document takes tokens off and adds none. -/
theorem length_document_le (fuel : Nat) (first : Bool) (r : Reading) :
    Yields (r.document fuel first) fun o => ∀ x ∈ o, x.2.tokens.length ≤ r.tokens.length :=
  (r.keeps_length.document fuel first).mono fun _ ho x hx => (ho x hx).2.length

/-- The mark of a document is a token that is taken off. -/
theorem length_explicitDocument_lt (fuel : Nat) (r : Reading) :
    Yields (r.explicitDocument fuel) fun x => x.2.2.tokens.length < r.tokens.length := by
  have hdropped := length_dropWhile_le (· = .directive) r
  rw [explicitDocument]
  apply (yields_look _).bind
  rintro ⟨t, here⟩ ⟨hpos, hlength⟩
  have htail := length_tail here
  dsimp only at hlength ⊢
  split
  · apply (yields_look here.tail).bind
    rintro ⟨u, behind⟩ ⟨-, hlength'⟩
    have hlt : behind.tokens.length < r.tokens.length := by
      dsimp only at hlength'
      omega
    apply yields_ite
    · exact yields_ok hlt
    · apply (isBehind_node fuel true false { behind with anchors := [] }).bind
      rintro ⟨n, rest⟩ hle
      exact yields_ok (Nat.lt_of_le_of_lt hle hlt)
  · exact yields_error _

/-- Each document but the first takes its mark. -/
theorem length_document_lt (fuel : Nat) (r : Reading) :
    Yields (r.document fuel false) fun o => ∀ x ∈ o, x.2.tokens.length < r.tokens.length := by
  have hdropped := length_dropWhile_le (· = .documentEnd) r
  rw [document]
  apply (yields_look _).bind
  rintro ⟨t, here⟩ ⟨-, hlength⟩
  apply yields_ite
  · apply yields_ok
    intro x hx
    cases hx
  · apply (length_explicitDocument_lt fuel here).bind
    rintro ⟨start, root, behind⟩ hlt
    apply (yields_look behind).bind
    rintro ⟨u, rest⟩ ⟨-, hlength'⟩
    have hrest : rest.tokens.length < r.tokens.length := by
      simp only [Bool.false_eq_true, if_false] at hlength
      dsimp only at hlt hlength'
      omega
    have htail := length_tail rest
    apply yields_ok
    intro x hx
    obtain rfl := Option.mem_some_iff.mp hx
    dsimp only
    split <;> omega

end Documents

end Reading

namespace Documents

/-- By induction on the count: each document but the first lowers the number of tokens. -/
theorem ofReading_eq {fuel fuel' count count' : Nat} {first : Bool} {r : Reading}
    (hfuel : 4 * r.tokens.length + 3 ≤ min fuel fuel')
    (hcount : r.tokens.length + 1 + (if first then 1 else 0) ≤ min count count') :
    ofReading fuel count first r = ofReading fuel' count' first r := by
  induction count generalizing count' first r with
  | zero => omega
  | succ count ih =>
      cases count' with
      | zero => omega
      | succ count' =>
          rw [ofReading, ofReading, Reading.document_eq first hfuel]
          split
          · rfl
          · rfl
          · next d rest hread =>
              have hle := (Reading.length_document_le fuel' first r).of_ok hread _ rfl
              have hlater : rest.tokens.length + 1 ≤ min count count' := by
                cases first with
                | true =>
                    simp only [if_true] at hcount
                    dsimp only at hle
                    omega
                | false =>
                    have hlt := (Reading.length_document_lt fuel' r).of_ok hread _ rfl
                    dsimp only at hlt
                    omega
              have hmore : ofReading fuel count false rest = ofReading fuel' count' false rest := by
                apply ih
                · dsimp only at hle
                  omega
                · exact hlater
              rw [hmore]

end Documents

/-- The start of the stream is always handed out. -/
theorem Token.stream_ne_nil (text : String) : (Token.stream text).tokens ≠ [] := by
  obtain ⟨n, hn⟩ : ∃ n, Scanner.fuelFor text = n + 2 := ⟨8 * text.length + 30, rfl⟩
  rw [Token.stream, hn]
  exact List.cons_ne_nil _ _

/-- The documents of a text do not depend on the steps, levels and counts that are allowed, if these
are no fewer than for the text. -/
theorem Documents.ofText_eq {text : String} {steps fuel count : Nat}
    (hsteps : Scanner.fuelFor text ≤ steps)
    (hfuel : 4 * (Token.stream text).tokens.length ≤ fuel)
    (hcount : (Token.stream text).tokens.length < count) :
    ofReading fuel count true (Reading.ofStream ((Scanner.ofText text).stream steps)).tail =
      ofText text := by
  have hpos := List.length_pos_iff.mpr (Token.stream_ne_nil text)
  have htail := Reading.length_tail (Reading.ofStream (Token.stream text))
  have hlength : (Reading.ofStream (Token.stream text)).tokens = (Token.stream text).tokens := rfl
  rw [hlength] at htail
  rw [Token.stream_eq hsteps, ofText]
  apply ofReading_eq
  · omega
  · simp only [if_true]
    omega

end ManifestForm.Yaml
