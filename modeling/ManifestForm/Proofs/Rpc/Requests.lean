import ManifestForm.Proofs.Json.Passing
import ManifestForm.Rpc.Request

/-!
# What a request is read to

A text that spells an object is a request exactly if the object has one method, which is a string,
and at most one id and one value of parameters; a text that spells an array is one if it has the
three in this order, or the first two. An id and parameters that are left out are null. No other
member has a say, whatever it is.
-/

namespace ManifestForm

open Json (Spells SpellsString Member)

namespace Json.Object

/-- The values under a name, in their order. -/
def values (o : Object) (name : String) : List Json := (o.filter (·.1 = name)).map Prod.snd

theorem values_cons (k : String) (v : Json) (o : Object) (name : String) :
    values ((k, v) :: o) name = if k = name then v :: values o name else values o name := by
  by_cases h : k = name <;> simp [values, h]

end Json.Object

namespace Rpc

section Slots

variable {α : Type} {read : Json → Option α}

/-- The values are read into a slot, which takes only one. -/
inductive Fills (read : Json → Option α) : List Json → Option α → Option α → Prop
  | nil (slot : Option α) : Fills read [] slot slot
  | cons {v : Json} {a : α} {vs : List Json} {slot : Option α} (hread : read v = some a)
      (htail : Fills read vs (some a) slot) : Fills read (v :: vs) none slot

theorem fills_cons_iff {v : Json} {vs : List Json} {slot slot' : Option α} :
    Fills read (v :: vs) slot slot' ↔
      slot = none ∧ ∃ a, read v = some a ∧ Fills read vs (some a) slot' := by
  constructor
  · rintro ⟨⟩
    next a hread htail => exact ⟨rfl, a, hread, htail⟩
  · rintro ⟨rfl, a, hread, htail⟩
    exact .cons hread htail

/-- An empty slot is left empty or filled by the only value. -/
theorem fills_none_iff {vs : List Json} {slot : Option α} : Fills read vs none slot ↔
    vs = [] ∧ slot = none ∨ ∃ v a, vs = [v] ∧ read v = some a ∧ slot = some a := by
  constructor
  · rintro (_ | ⟨hread, ⟨⟩⟩)
    · exact Or.inl ⟨rfl, rfl⟩
    · exact Or.inr ⟨_, _, rfl, hread, rfl⟩
  · rintro (⟨rfl, rfl⟩ | ⟨v, a, rfl, hread, rfl⟩)
    · exact .nil none
    · exact .cons hread (.nil _)

end Slots

namespace Draft

/-- The member with this key, added to those read before. -/
def add? (d : Draft) (kv : String × Json) : Option Draft :=
  match kv.1 with
  | "id" =>
    if d.id.isSome then none
    else (kv.2.reread? Request.memberDepth).map fun v => { d with id := some v }
  | "method" =>
    if d.method.isSome then none else kv.2.string?.map fun name => { d with method := some name }
  | "params" =>
    if d.params.isSome then none
    else (kv.2.reread? Request.memberDepth).map fun v => { d with params := some v }
  | _ => some d

/-- The slots of a draft before and after the members of an object. -/
@[mk_iff]
structure Collects (kvs : Json.Object) (d d' : Draft) : Prop where
  id : Fills (·.reread? Request.memberDepth) (kvs.values "id") d.id d'.id
  method : Fills Json.string? (kvs.values "method") d.method d'.method
  params : Fills (·.reread? Request.memberDepth) (kvs.values "params") d.params d'.params

theorem collects_nil_iff {d d' : Draft} : Collects [] d d' ↔ d' = d := by
  constructor
  · rintro ⟨hid, hmethod, hparams⟩
    obtain ⟨id, method, params⟩ := d
    obtain ⟨id', method', params'⟩ := d'
    cases hid
    cases hmethod
    cases hparams
    rfl
  · rintro rfl
    exact ⟨.nil _, .nil _, .nil _⟩

theorem collects_cons_iff {kv : String × Json} {kvs : Json.Object} {d d' : Draft} :
    Collects (kv :: kvs) d d' ↔ ∃ d₁, d.add? kv = some d₁ ∧ Collects kvs d₁ d' := by
  obtain ⟨name, v⟩ := kv
  obtain ⟨id, method, params⟩ := d
  -- A member with one of the three names fills its own slot only, and any other fills none.
  by_cases hid : name = "id"
  · subst hid
    cases id with
    | none =>
        simp only [collects_iff, Json.Object.values_cons, String.reduceEq, ↓reduceIte,
          fills_cons_iff, true_and, add?, Option.isSome_none, Bool.false_eq_true,
          Option.map_eq_some_iff, exists_exists_and_eq_and]
        grind
    | some _ => simp [collects_iff, Json.Object.values_cons, fills_cons_iff, add?]
  by_cases hmethod : name = "method"
  · subst hmethod
    cases method with
    | none =>
        simp only [collects_iff, Json.Object.values_cons, String.reduceEq, ↓reduceIte,
          fills_cons_iff, true_and, add?, Option.isSome_none, Bool.false_eq_true,
          Option.map_eq_some_iff, exists_exists_and_eq_and]
        grind
    | some _ => simp [collects_iff, Json.Object.values_cons, fills_cons_iff, add?]
  by_cases hparams : name = "params"
  · subst hparams
    cases params with
    | none =>
        simp only [collects_iff, Json.Object.values_cons, String.reduceEq, ↓reduceIte,
          fills_cons_iff, true_and, add?, Option.isSome_none, Bool.false_eq_true,
          Option.map_eq_some_iff, exists_exists_and_eq_and]
        grind
    | some _ => simp [collects_iff, Json.Object.values_cons, fills_cons_iff, add?]
  · simp [collects_iff, Json.Object.values_cons, add?, hid, hmethod, hparams]

/-- Members are added one after the other as each name's values fill its slot. -/
theorem foldlM_add?_eq_some_iff {kvs : Json.Object} {d d' : Draft} :
    kvs.foldlM add? d = some d' ↔ Collects kvs d d' := by
  induction kvs generalizing d with
  | nil =>
      rw [List.foldlM_nil, collects_nil_iff]
      exact ⟨fun h => (Option.some.inj h).symm, fun h => h ▸ rfl⟩
  | cons kv kvs ih =>
      rw [List.foldlM_cons, collects_cons_iff]
      simp only [← ih]
      exact Option.bind_eq_some_iff

end Draft

namespace Request

section Members

open Json.Parser (Closes closes_comma closes_brace skipBlank_cons Separated separated_intercalate)

variable {text : List Char} {v : Json}

/-- A method is read from the text of a string and from no other. -/
theorem readMethod_append (h : Spells text v) (rest : List Char) :
    readMethod (text ++ rest) = v.string?.map fun name => (name, rest) := by
  cases h with
  | null => rfl
  | true => rfl
  | false => rfl
  | num hnumeral =>
      obtain ⟨c, r, hopen, hc⟩ := Json.Parser.exists_cons_of_isNumeral hnumeral
      rw [hopen, List.cons_append, readMethod, skipBlank_cons hc.not_isBlank]
      split
      · next heq => exact absurd (List.cons.inj heq).1 (hc.ne (by decide) (by decide))
      · rfl
  | str hstring =>
      cases hstring with
      | @intro text s hchars =>
          have hread := Json.Parser.stringTail_append hchars rest
          rw [List.cons_append, List.append_assoc, List.singleton_append, readMethod,
            skipBlank_cons (by decide)]
          simp only [hread, Option.map_some, Json.string?, String.ofList_toList]
  | arr items _ => rfl
  | obj members _ _ => rfl

theorem readValue_append (h : Spells text v) {fuel : Nat} (hfuel : text.length ≤ fuel)
    {rest : List Char} (hrest : Closes rest) :
    readValue fuel (text ++ rest) = (v.reread? memberDepth).map fun w => (w, rest) :=
  Json.Parser.isReadAs_of_spells h fuel memberDepth rest hfuel hrest

theorem member_append (h : Spells text v) {fuel : Nat} (hfuel : text.length ≤ fuel)
    {rest : List Char} (hrest : Closes rest) (name : String) (d : Draft) :
    member fuel name d (text ++ rest) = (d.add? (name, v)).map fun d => (d, rest) := by
  have hvalue := readValue_append h hfuel hrest
  by_cases hid : name = "id"
  · subst hid
    simp only [member, Draft.add?, hvalue]
    split <;> simp [Function.comp_def]
  by_cases hmethod : name = "method"
  · subst hmethod
    simp only [member, Draft.add?, readMethod_append h rest]
    split <;> simp [Function.comp_def]
  by_cases hparams : name = "params"
  · subst hparams
    simp only [member, Draft.add?, hvalue]
    split <;> simp [Function.comp_def]
  · have hpass := Json.Parser.isPassed_of_spells h fuel rest hfuel hrest
    simp [member, Draft.add?, hpass]

/-- Behind an opening brace the members are added one after the other. -/
theorem members_of_separated {fuel : Nat} {ms : List Member} {s rest : List Char}
    (h : Separated Member.text ('}' :: rest) fuel ms s)
    (hkeys : ∀ m ∈ ms, SpellsString m.keyText m.key)
    (hvalues : ∀ m ∈ ms, Spells m.valueText m.value) (d : Draft) :
    members fuel d s = ((ms.map Member.entry).foldlM Draft.add? d).map fun d => (d, rest) := by
  induction h generalizing d with
  | @last fuel m hfuel =>
      have hkey := List.forall_mem_singleton.mp hkeys
      have hvalue := List.forall_mem_singleton.mp hvalues
      have hmember := member_append hvalue (Nat.le_trans m.length_valueText_le hfuel)
        (closes_brace rest) m.key d
      rw [Member.text, List.append_assoc, List.cons_append, members, Json.Parser.key_append hkey]
      simp only [hmember, List.map_singleton, Member.entry, List.foldlM_cons]
      cases d.add? (m.key, m.value) with
      | none => rfl
      | some d => simp [skipBlank_cons (c := '}') (by decide)]
  | @more fuel m ms s hfuel hrest ih =>
      obtain ⟨hkey, hkeys⟩ := List.forall_mem_cons.mp hkeys
      obtain ⟨hvalue, hvalues⟩ := List.forall_mem_cons.mp hvalues
      have hmember := member_append hvalue (Nat.le_trans m.length_valueText_le hfuel)
        (closes_comma s) m.key d
      rw [Member.text, List.append_assoc, List.cons_append, members, Json.Parser.key_append hkey]
      simp only [hmember, List.map_cons, Member.entry, List.foldlM_cons]
      cases d.add? (m.key, m.value) with
      | none => rfl
      | some d =>
          simp only [Option.map_some, skipBlank_cons (c := ',') (by decide), ih hkeys hvalues]
          rfl

/-- The members of an object fill a draft that is empty before. -/
theorem draft_of_members {ms : List Member} (hkeys : ∀ m ∈ ms, SpellsString m.keyText m.key)
    (hvalues : ∀ m ∈ ms, Spells m.valueText m.value) :
    draft ('{' :: ([','].intercalate (ms.map Member.text) ++ ['}'])) =
      ((ms.map Member.entry).foldlM Draft.add? .empty).map fun d => (d, []) := by
  by_cases hsome : ms = []
  · subst hsome
    rfl
  · obtain ⟨c, r, hopen, rfl⟩ :=
      Json.Parser.exists_cons_intercalate (mt List.map_eq_nil_iff.mp hsome)
        (List.forall_mem_map.mpr fun m hm => Json.Parser.exists_cons_of_member (hkeys m hm))
    have hread (fuel : Nat) (hfuel : ([','].intercalate (ms.map Member.text)).length < fuel) :=
      members_of_separated (separated_intercalate hsome hfuel ['}']) hkeys hvalues .empty
    rw [hopen] at hread ⊢
    rw [List.cons_append] at hread ⊢
    have hlength : ('"' :: r).length < Json.Parser.fuelFor ('{' :: '"' :: (r ++ ['}'])) := by
      simp only [Json.Parser.fuelFor, List.length_cons, List.length_append]
      omega
    simp only [draft, skipBlank_cons (c := '{') (by decide), skipBlank_cons (c := '"') (by decide),
      hread _ hlength]
    rfl

end Members

section Elements

open Json.Parser (Closes closes_comma closes_bracket skipBlank_cons fuelFor)

/-- The draft that items stand for: an id, a method and perhaps parameters. -/
def ofItems? : List Json → Option Draft
  | [i, m] =>
    (i.reread? memberDepth).bind fun id => m.string?.map fun name => ⟨some id, some name, none⟩
  | [i, m, p] =>
    (i.reread? memberDepth).bind fun id => m.string?.bind fun name =>
      (p.reread? memberDepth).map fun params => ⟨some id, some name, some params⟩
  | _ => none

section TwoOrThree

variable {fuel : Nat} {idText nameText paramsText : List Char} {i m p : Json}

theorem elements_of_two (hid : Spells idText i) (hname : Spells nameText m)
    (hfuel : idText.length ≤ fuel) (rest : List Char) :
    elements fuel (idText ++ ',' :: (nameText ++ ']' :: rest)) =
      (ofItems? [i, m]).map fun d => (d, rest) := by
  rw [elements, readValue_append hid hfuel (closes_comma _), ofItems?]
  cases i.reread? memberDepth with
  | none => rfl
  | some id =>
      simp only [Option.map_some, skipBlank_cons (c := ',') (by decide), readMethod_append hname]
      cases m.string? with
      | none => rfl
      | some name => simp [skipBlank_cons (c := ']') (by decide)]

/-- Behind the parameters the array has to end. -/
theorem elements_of_three (hid : Spells idText i) (hname : Spells nameText m)
    (hparams : Spells paramsText p) (hfuel : idText.length ≤ fuel)
    (hfuel' : paramsText.length ≤ fuel) {c : Char} (hblank : Json.Parser.isBlank c = false)
    {rest : List Char} (hrest : Closes (c :: rest)) :
    elements fuel (idText ++ ',' :: (nameText ++ ',' :: (paramsText ++ c :: rest))) =
      if c = ']' then (ofItems? [i, m, p]).map fun d => (d, rest) else none := by
  rw [elements, readValue_append hid hfuel (closes_comma _), ofItems?]
  cases i.reread? memberDepth with
  | none => simp
  | some id =>
      simp only [Option.map_some, skipBlank_cons (c := ',') (by decide), readMethod_append hname]
      cases m.string? with
      | none => simp
      | some name =>
          simp only [Option.map_some, skipBlank_cons (c := ',') (by decide),
            readValue_append hparams hfuel' hrest]
          cases p.reread? memberDepth with
          | none => simp
          | some params =>
              by_cases hc : c = ']'
              · simp [hc, skipBlank_cons (c := ']') (by decide)]
              · simp [hc, skipBlank_cons hblank]

end TwoOrThree

/-- The items behind an opening bracket. -/
theorem elements_append {fuel : Nat} {items : List (List Char × Json)}
    (heach : ∀ i ∈ items, Spells i.1 i.2)
    (hfuel : ([','].intercalate (items.map Prod.fst)).length < fuel) (rest : List Char) :
    elements fuel ([','].intercalate (items.map Prod.fst) ++ ']' :: rest) =
      (ofItems? (items.map Prod.snd)).map fun d => (d, rest) := by
  rcases items with _ | ⟨⟨idText, i⟩, _ | ⟨⟨nameText, m⟩, items⟩⟩
  · obtain ⟨fuel, rfl⟩ := Nat.exists_eq_succ_of_ne_zero (Nat.ne_zero_of_lt hfuel)
    rfl
  · have hid := heach _ List.mem_cons_self
    simp only [List.map_cons, List.map_nil, List.intercalate_singleton] at hfuel ⊢
    rw [elements, readValue_append hid (Nat.le_of_lt hfuel) (closes_bracket rest)]
    cases i.reread? memberDepth with
    | none => rfl
    | some id => simp [skipBlank_cons (c := ']') (by decide), ofItems?]
  · have hid : Spells idText i := heach (idText, i) (by simp)
    have hname : Spells nameText m := heach (nameText, m) (by simp)
    have hlength : idText.length ≤ fuel := by
      simp only [List.map_cons, List.intercalate_cons_cons, List.length_append] at hfuel
      omega
    rcases items with _ | ⟨⟨paramsText, p⟩, items⟩
    · simpa [List.intercalate_cons_cons] using elements_of_two hid hname hlength rest
    · have hparams : Spells paramsText p := heach (paramsText, p) (by simp)
      have hlength' : paramsText.length ≤ fuel := by
        cases items <;> simp [List.intercalate_cons_cons] at hfuel <;> omega
      rcases items with _ | ⟨⟨text, v⟩, items⟩
      · simpa [List.intercalate_cons_cons] using
          elements_of_three hid hname hparams hlength hlength' (by decide) (closes_bracket rest)
      · simpa [List.intercalate_cons_cons, ofItems?] using
          elements_of_three hid hname hparams hlength hlength' (by decide) (closes_comma _)

theorem draft_of_items {items : List (List Char × Json)} (heach : ∀ i ∈ items, Spells i.1 i.2) :
    draft ('[' :: ([','].intercalate (items.map Prod.fst) ++ [']'])) =
      (ofItems? (items.map Prod.snd)).map fun d => (d, []) := by
  simp only [draft, skipBlank_cons (c := '[') (by decide)]
  apply elements_append heach
  simp only [fuelFor, List.length_cons, List.length_append]
  omega

end Elements

/-- There is at most one value, and without one it counts as null. -/
def IsOnlyOrNull (vs : List Json) (w : Json) : Prop :=
  vs = [] ∧ w = .null ∨ ∃ v, vs = [v] ∧ v.reread? memberDepth = some w

theorem isOnlyOrNull_iff {vs : List Json} {w : Json} : IsOnlyOrNull vs w ↔
    ∃ slot, Fills (·.reread? memberDepth) vs none slot ∧ slot.getD .null = w := by
  constructor
  · rintro (⟨rfl, rfl⟩ | ⟨v, rfl, hread⟩)
    · exact ⟨none, .nil none, rfl⟩
    · exact ⟨some w, .cons hread (.nil _), rfl⟩
  · rintro ⟨slot, hfills, rfl⟩
    rcases fills_none_iff.mp hfills with ⟨rfl, rfl⟩ | ⟨v, a, rfl, hread, rfl⟩
    · exact Or.inl ⟨rfl, rfl⟩
    · exact Or.inr ⟨v, rfl, hread⟩

end Request

/-- The request that a value stands for. -/
inductive IsRequest : Json → Request → Prop
  | members {kvs : Json.Object} {r : Request} (hid : Request.IsOnlyOrNull (kvs.values "id") r.id)
      (hmethod : kvs.values "method" = [.str r.method])
      (hparams : Request.IsOnlyOrNull (kvs.values "params") r.params) : IsRequest (.obj kvs) r
  | brief {i id : Json} {method : String} (hid : i.reread? Request.memberDepth = some id) :
      IsRequest (.arr [i, .str method]) ⟨id, method, .null⟩
  | full {i p id params : Json} {method : String}
      (hid : i.reread? Request.memberDepth = some id)
      (hparams : p.reread? Request.memberDepth = some params) :
      IsRequest (.arr [i, .str method, p]) ⟨id, method, params⟩

theorem isRequest_obj_iff {kvs : Json.Object} {r : Request} :
    IsRequest (.obj kvs) r ↔ ∃ d, Draft.Collects kvs .empty d ∧ d.request? = some r := by
  constructor
  · rintro ⟨hid, hmethod, hparams⟩
    obtain ⟨id, hid, hidEq⟩ := Request.isOnlyOrNull_iff.mp hid
    obtain ⟨params, hparams, hparamsEq⟩ := Request.isOnlyOrNull_iff.mp hparams
    have hmethod : Fills Json.string? (kvs.values "method") none (some r.method) := by
      rw [hmethod]
      exact .cons rfl (.nil _)
    refine ⟨⟨id, some r.method, params⟩, ⟨hid, hmethod, hparams⟩, ?_⟩
    rw [Draft.request?, Option.map_some, hidEq, hparamsEq]
  · rintro ⟨⟨id, method, params⟩, ⟨hid, hmethod, hparams⟩, hr⟩
    obtain ⟨name, rfl, rfl⟩ := Option.map_eq_some_iff.mp hr
    refine .members (Request.isOnlyOrNull_iff.mpr ⟨id, hid, rfl⟩) ?_
      (Request.isOnlyOrNull_iff.mpr ⟨params, hparams, rfl⟩)
    rcases fills_none_iff.mp hmethod with ⟨-, ⟨⟩⟩ | ⟨v, _, hvalues, hread, ⟨⟩⟩
    rw [hvalues, Json.string?_eq_some_iff.mp hread]

theorem isRequest_arr_iff {vs : List Json} {r : Request} :
    IsRequest (.arr vs) r ↔ ∃ d, Request.ofItems? vs = some d ∧ d.request? = some r := by
  constructor
  · rintro (_ | hid | ⟨hid, hparams⟩)
    · exact ⟨⟨some _, some _, none⟩, by simp [Request.ofItems?, hid, Json.string?], rfl⟩
    · exact ⟨⟨some _, some _, some _⟩, by simp [Request.ofItems?, hid, hparams, Json.string?], rfl⟩
  · rintro ⟨d, hd, hr⟩
    unfold Request.ofItems? at hd
    split at hd
    · obtain ⟨id, hid, hd⟩ := Option.bind_eq_some_iff.mp hd
      obtain ⟨name, hname, rfl⟩ := Option.map_eq_some_iff.mp hd
      obtain rfl := Option.some.inj hr
      rw [Json.string?_eq_some_iff.mp hname]
      exact .brief hid
    · obtain ⟨id, hid, hd⟩ := Option.bind_eq_some_iff.mp hd
      obtain ⟨name, hname, hd⟩ := Option.bind_eq_some_iff.mp hd
      obtain ⟨params, hparams, rfl⟩ := Option.map_eq_some_iff.mp hd
      obtain rfl := Option.some.inj hr
      rw [Json.string?_eq_some_iff.mp hname]
      exact .full hid hparams
    · cases hd

namespace Request

variable {line text : List Char}

theorem parse?_of_scalar {c : Char} (hblank : Json.Parser.isBlank c = false) (hbrace : c ≠ '{')
    (hbracket : c ≠ '[') : parse? (c :: text) = none := by
  have hdraft : draft (c :: text) = none := by
    simp only [draft, Json.Parser.skipBlank_cons hblank]
    split
    · next heq => exact absurd (List.cons.inj heq).1 hbrace
    · next heq => exact absurd (List.cons.inj heq).1 hbracket
    · rfl
  rw [parse?, hdraft]
  rfl

theorem parse?_of_draft {d? : Option Draft} (h : draft line = d?.map fun d => (d, [])) :
    parse? line = d?.bind Draft.request? := by
  rw [parse?, h]
  cases d? <;> rfl

/-- A text that spells a value is a request exactly if the value stands for one. -/
theorem parse?_eq_some_iff {v : Json} (h : Spells line v) {r : Request} :
    parse? line = some r ↔ IsRequest v r := by
  cases h with
  | null =>
      rw [parse?_of_scalar (by decide) (by decide) (by decide)]
      exact iff_of_false (by simp) (by rintro ⟨⟩)
  | true =>
      rw [parse?_of_scalar (by decide) (by decide) (by decide)]
      exact iff_of_false (by simp) (by rintro ⟨⟩)
  | false =>
      rw [parse?_of_scalar (by decide) (by decide) (by decide)]
      exact iff_of_false (by simp) (by rintro ⟨⟩)
  | num hnumeral =>
      obtain ⟨c, text, hopen, hc⟩ := Json.Parser.exists_cons_of_isNumeral hnumeral
      rw [hopen, parse?_of_scalar hc.not_isBlank (hc.ne (by decide) (by decide))
        (hc.ne (by decide) (by decide))]
      exact iff_of_false (by simp) (by rintro ⟨⟩)
  | str hstring =>
      cases hstring
      rw [parse?_of_scalar (by decide) (by decide) (by decide)]
      exact iff_of_false (by simp) (by rintro ⟨⟩)
  | arr items heach =>
      rw [parse?_of_draft (draft_of_items heach), Option.bind_eq_some_iff, isRequest_arr_iff]
  | obj members hkeys hvalues =>
      rw [parse?_of_draft (draft_of_members hkeys hvalues), Option.bind_eq_some_iff,
        isRequest_obj_iff]
      simp only [Draft.foldlM_add?_eq_some_iff]

example : parse? (Json.obj [("trace", .null), ("method", .str "getState"), ("id", .nat 7)]).render =
    some ⟨.nat 7, "getState", .null⟩ := by
  rfl

end Request

end Rpc

end ManifestForm
