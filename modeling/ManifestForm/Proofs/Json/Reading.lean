import ManifestForm.Proofs.Json.Object
import ManifestForm.Proofs.Json.Scalars

/-!
# Spelled values are read

A text that spells a value is read to this value, but for two things: each number is what its own
text is read to, and of a repeated key the last value counts. So no object that is read has a key
twice.
-/

namespace ManifestForm

namespace Json

/-- What a text that spells the value is read to, with `depth` levels of brackets left. -/
def reread? : Json → Nat → Option Json
  | .num n, _ => n.reread?.map .num
  | .arr _, 0 | .obj _, 0 => none
  | .arr items, depth + 1 => (rereadAll? items depth).map .arr
  | .obj entries, depth + 1 =>
    (rereadEntries? entries depth).map fun kvs => .obj (Object.ofList kvs)
  | v, _ => some v
where
  rereadAll? : List Json → Nat → Option (List Json)
    | [], _ => some []
    | x :: xs, depth => (reread? x depth).bind fun w => (rereadAll? xs depth).map (w :: ·)
  rereadEntries? : List (String × Json) → Nat → Option (List (String × Json))
    | [], _ => some []
    | (k, x) :: kvs, depth =>
      (reread? x depth).bind fun w => (rereadEntries? kvs depth).map ((k, w) :: ·)

/-- An integer of the range is read to itself. -/
theorem reread?_int {n : Int} (hleast : -(Nat.pow 2 63 : Nat) ≤ n) (hmost : n ≤ maxInt)
    (depth : Nat) : (num (.int n)).reread? depth = some (num (.int n)) := by
  rw [reread?, Number.reread?_int hleast hmost, Option.map_some]

namespace Parser

section Commas

variable {α : Type} {text : α → List Char}

/-- Texts with commas between them and `close` behind the last, with fuel for each. -/
inductive Separated (text : α → List Char) (close : List Char) : Nat → List α → List Char → Prop
  | last {fuel : Nat} {a : α} (hfuel : (text a).length ≤ fuel) :
      Separated text close (fuel + 1) [a] (text a ++ close)
  | more {fuel : Nat} {a : α} {as : List α} {s : List Char} (hfuel : (text a).length ≤ fuel)
      (hrest : Separated text close fuel as s) :
      Separated text close (fuel + 1) (a :: as) (text a ++ ',' :: s)

/-- Texts joined by commas are separated by them. -/
theorem separated_intercalate {as : List α} (hsome : as ≠ []) {fuel : Nat}
    (hfuel : ([','].intercalate (as.map text)).length < fuel) (close : List Char) :
    Separated text close fuel as ([','].intercalate (as.map text) ++ close) := by
  induction as generalizing fuel with
  | nil => exact absurd rfl hsome
  | cons a as ih =>
      obtain ⟨fuel, rfl⟩ := Nat.exists_eq_succ_of_ne_zero (Nat.ne_zero_of_lt hfuel)
      cases as with
      | nil =>
          rw [List.map_singleton, List.intercalate_singleton] at hfuel ⊢
          exact .last (Nat.le_of_lt_succ hfuel)
      | cons b as =>
          simp only [List.map_cons, List.intercalate_cons_cons, List.append_assoc,
            List.singleton_append, List.length_append, List.length_cons] at hfuel ih ⊢
          exact .more (by omega) (ih (List.cons_ne_nil _ _) (by omega))

theorem exists_cons_intercalate {P : Char → Prop} {texts : List (List Char)} (hsome : texts ≠ [])
    (heach : ∀ text ∈ texts, ∃ c r, text = c :: r ∧ P c) :
    ∃ c r, [','].intercalate texts = c :: r ∧ P c := by
  obtain ⟨text, texts, rfl⟩ := List.exists_cons_of_ne_nil hsome
  obtain ⟨c, r, rfl, hc⟩ := heach text List.mem_cons_self
  rw [intercalate_cons_eq_flatMap]
  exact ⟨c, _, rfl, hc⟩

end Commas

section Values

variable {text rest : List Char}

/-- A value starts with neither a blank nor a closing bracket. -/
theorem exists_cons_of_spells {v : Json} (h : Spells text v) :
    ∃ c r, text = c :: r ∧ isBlank c = false ∧ c ≠ ']' := by
  cases h with
  | null => exact ⟨_, _, rfl, by decide⟩
  | true => exact ⟨_, _, rfl, by decide⟩
  | false => exact ⟨_, _, rfl, by decide⟩
  | num hnumeral =>
      obtain ⟨c, r, htext, hc⟩ := exists_cons_of_isNumeral hnumeral
      exact ⟨c, r, htext, hc.not_isBlank, hc.ne (by decide) (by decide)⟩
  | str hstring =>
      cases hstring
      exact ⟨_, _, rfl, by decide⟩
  | arr items _ => exact ⟨_, _, rfl, by decide⟩
  | obj members _ _ => exact ⟨_, _, rfl, by decide⟩

/-- A member starts with the quote of its key. -/
theorem exists_cons_of_member {m : Member} (h : SpellsString m.keyText m.key) :
    ∃ c r, m.text = c :: r ∧ c = '"' := by
  obtain ⟨keyText, k, valueText, v⟩ := m
  cases h
  exact ⟨_, _, rfl, rfl⟩

theorem value_of_scalar {c : Char} {r : List Char} (hblank : isBlank c = false) (hbracket : c ≠ '[')
    (hbrace : c ≠ '{') (fuel depth : Nat) :
    value (fuel + 1) depth (c :: r) = scalar (c :: r) := by
  have hskip := skipBlank_cons hblank r
  rw [value, hskip]
  · intro _ hopen _
    exact hbracket (List.cons.inj (hskip.symm.trans hopen)).1
  · intro _ hopen _
    exact hbrace (List.cons.inj (hskip.symm.trans hopen)).1
  · intro _ _ hopen _
    exact hbracket (List.cons.inj (hskip.symm.trans hopen)).1
  · intro _ _ hopen _
    exact hbrace (List.cons.inj (hskip.symm.trans hopen)).1

theorem scalar_of_isNumeral (h : IsNumeral text) : scalar (text ++ rest) =
    (numeral (text ++ rest)).bind fun (n, rest) => n.value?.map fun v => (.num v, rest) := by
  obtain ⟨c, r, rfl, hc⟩ := exists_cons_of_isNumeral h
  rw [List.cons_append, scalar]
  · exact fun _ heq => hc.ne (by decide) (by decide) (List.cons.inj heq).1
  · exact fun _ heq => hc.ne (by decide) (by decide) (List.cons.inj heq).1
  · exact fun _ heq => hc.ne (by decide) (by decide) (List.cons.inj heq).1
  · exact fun _ heq => hc.ne (by decide) (by decide) (List.cons.inj heq).1

/-- The text is read to what the value is, whatever stands behind it. -/
def IsReadAs (v : Json) (text : List Char) : Prop :=
  ∀ fuel depth rest, text.length ≤ fuel → Closes rest →
    value fuel depth (text ++ rest) = (v.reread? depth).map fun w => (w, rest)

/-- The items behind an opening bracket. -/
theorem items_of_separated {fuel : Nat} {items : List (List Char × Json)} {s : List Char}
    (h : Separated Prod.fst (']' :: rest) fuel items s) (heach : ∀ i ∈ items, IsReadAs i.2 i.1)
    (depth : Nat) : Parser.items fuel depth s =
      (reread?.rereadAll? (items.map Prod.snd) depth).map fun xs => (xs, rest) := by
  induction h with
  | @last fuel item hfuel =>
      have hread := List.forall_mem_singleton.mp heach fuel depth _ hfuel (closes_bracket rest)
      rw [Parser.items, hread, List.map_singleton, reread?.rereadAll?]
      cases item.2.reread? depth with
      | none => rfl
      | some w => simp [skipBlank_cons (c := ']') (by decide), reread?.rereadAll?]
  | @more fuel item items s hfuel hrest ih =>
      obtain ⟨hread, hmore⟩ := List.forall_mem_cons.mp heach
      rw [Parser.items, hread fuel depth _ hfuel (closes_comma s), List.map_cons,
        reread?.rereadAll?]
      cases item.2.reread? depth with
      | none => rfl
      | some w =>
          simp only [Option.map_some, skipBlank_cons (c := ',') (by decide), ih hmore,
            Option.bind_some, Option.map_map]
          rfl

/-- The entries behind an opening brace. -/
theorem entries_of_separated {fuel : Nat} {members : List Member} {s : List Char}
    (h : Separated Member.text ('}' :: rest) fuel members s)
    (hkeys : ∀ m ∈ members, SpellsString m.keyText m.key)
    (heach : ∀ m ∈ members, IsReadAs m.value m.valueText) (depth : Nat) :
    Parser.entries fuel depth s =
      (reread?.rereadEntries? (members.map Member.entry) depth).map fun kvs => (kvs, rest) := by
  induction h with
  | @last fuel m hfuel =>
      have hkey := List.forall_mem_singleton.mp hkeys
      have hread := List.forall_mem_singleton.mp heach fuel depth _
        (Nat.le_trans m.length_valueText_le hfuel) (closes_brace rest)
      rw [Member.text, List.append_assoc, List.cons_append, Parser.entries, key_append hkey]
      simp only [hread, List.map_singleton, Member.entry, reread?.rereadEntries?]
      cases m.value.reread? depth with
      | none => rfl
      | some w => simp [skipBlank_cons (c := '}') (by decide)]
  | @more fuel m members s hfuel hrest ih =>
      obtain ⟨hkey, hkeys⟩ := List.forall_mem_cons.mp hkeys
      obtain ⟨hread, hmore⟩ := List.forall_mem_cons.mp heach
      have hread := hread fuel depth _ (Nat.le_trans m.length_valueText_le hfuel) (closes_comma s)
      rw [Member.text, List.append_assoc, List.cons_append, Parser.entries, key_append hkey]
      simp only [hread, List.map_cons, Member.entry, reread?.rereadEntries?]
      cases m.value.reread? depth with
      | none => rfl
      | some w =>
          simp only [Option.map_some, skipBlank_cons (c := ',') (by decide), ih hkeys hmore,
            Option.bind_some, Option.map_map]
          rfl

theorem value_of_items {c : Char} {r : List Char} (hblank : isBlank c = false) (hclose : c ≠ ']')
    (fuel depth : Nat) : value (fuel + 1) (depth + 1) ('[' :: c :: r) =
      (items fuel depth (c :: r)).map fun (xs, rest) => (.arr xs, rest) := by
  have hopen : skipBlank ('[' :: c :: r) = '[' :: c :: r := skipBlank_cons (by decide) _
  simp only [value, hopen, skipBlank_cons hblank]
  split
  · next heq => exact absurd (List.cons.inj heq).1 hclose
  · rfl

theorem value_of_entries {c : Char} {r : List Char} (hblank : isBlank c = false) (hclose : c ≠ '}')
    (fuel depth : Nat) : value (fuel + 1) (depth + 1) ('{' :: c :: r) =
      (entries fuel depth (c :: r)).map fun (kvs, rest) => (.obj (Object.ofList kvs), rest) := by
  have hopen : skipBlank ('{' :: c :: r) = '{' :: c :: r := skipBlank_cons (by decide) _
  simp only [value, hopen, skipBlank_cons hblank]
  split
  · next heq => exact absurd (List.cons.inj heq).1 hclose
  · rfl

theorem isReadAs_of_scalar {v : Json} {c : Char} {r : List Char} (hblank : isBlank c = false)
    (hbracket : c ≠ '[') (hbrace : c ≠ '{')
    (hread : ∀ depth rest, Closes rest →
      scalar (c :: r ++ rest) = (v.reread? depth).map fun w => (w, rest)) :
    IsReadAs v (c :: r) := by
  intro fuel depth rest hfuel hrest
  cases fuel with
  | zero => cases hfuel
  | succ fuel =>
      rw [List.cons_append, value_of_scalar hblank hbracket hbrace]
      exact hread depth rest hrest

theorem isReadAs_num {n : Number} (h : IsNumeral n.text) : IsReadAs (.num n) n.text := by
  obtain ⟨m, hm⟩ := numeral_append h
  obtain ⟨c, r, htext, hc⟩ := exists_cons_of_isNumeral h
  have hreread : n.reread? = m.value? := by
    have hwhole := hm [] closes_nil
    rw [List.append_nil] at hwhole
    rw [Number.reread?, hwhole, Option.bind_some]
  have hread (depth : Nat) (rest : List Char) (hrest : Closes rest) :
      scalar (n.text ++ rest) = ((num n).reread? depth).map fun w => (w, rest) := by
    rw [scalar_of_isNumeral h, hm rest hrest, reread?, hreread, Option.bind_some, Option.map_map]
    rfl
  rw [htext] at hread ⊢
  exact isReadAs_of_scalar hc.not_isBlank (hc.ne (by decide) (by decide))
    (hc.ne (by decide) (by decide)) hread

theorem isReadAs_str {s : String} (h : SpellsString text s) : IsReadAs (.str s) text := by
  cases h with
  | @intro text s hchars =>
      apply isReadAs_of_scalar (by decide) (by decide) (by decide)
      intro depth rest _
      have hread := stringTail_append hchars rest
      rw [List.cons_append, List.append_assoc, List.singleton_append, scalar, hread]
      simp only [Option.map_some, reread?, String.ofList_toList]

/-- The text of an array, if its items are read. -/
theorem isReadAs_arr {items : List (List Char × Json)}
    (hstart : ∀ i ∈ items, ∃ c r, i.1 = c :: r ∧ isBlank c = false ∧ c ≠ ']')
    (heach : ∀ i ∈ items, IsReadAs i.2 i.1) :
    IsReadAs (.arr (items.map Prod.snd))
      ('[' :: ([','].intercalate (items.map Prod.fst) ++ [']'])) := by
  intro fuel depth rest hfuel _
  simp only [List.length_cons, List.length_append, List.length_nil] at hfuel
  obtain ⟨fuel, rfl⟩ := Nat.exists_eq_add_of_le' (Nat.le_of_add_left_le hfuel)
  cases depth with
  | zero => rfl
  | succ depth =>
      by_cases hsome : items = []
      · subst hsome
        rfl
      · have hlength : ([','].intercalate (items.map Prod.fst)).length < fuel := by omega
        have hitems :=
          items_of_separated (separated_intercalate hsome hlength (']' :: rest)) heach depth
        obtain ⟨c, r, hopen, hblank, hclose⟩ :=
          exists_cons_intercalate (mt List.map_eq_nil_iff.mp hsome) (List.forall_mem_map.mpr hstart)
        rw [List.cons_append, List.append_assoc, List.singleton_append]
        rw [hopen, List.cons_append] at hitems ⊢
        rw [value_of_items hblank hclose, hitems, reread?, Option.map_map, Option.map_map]
        rfl

/-- The text of an object, if its values are read. -/
theorem isReadAs_obj {members : List Member} (hkeys : ∀ m ∈ members, SpellsString m.keyText m.key)
    (heach : ∀ m ∈ members, IsReadAs m.value m.valueText) :
    IsReadAs (.obj (members.map Member.entry))
      ('{' :: ([','].intercalate (members.map Member.text) ++ ['}'])) := by
  intro fuel depth rest hfuel _
  simp only [List.length_cons, List.length_append, List.length_nil] at hfuel
  obtain ⟨fuel, rfl⟩ := Nat.exists_eq_add_of_le' (Nat.le_of_add_left_le hfuel)
  cases depth with
  | zero => rfl
  | succ depth =>
      by_cases hsome : members = []
      · subst hsome
        rfl
      · have hlength : ([','].intercalate (members.map Member.text)).length < fuel := by omega
        have hseparated := separated_intercalate hsome hlength ('}' :: rest)
        have hentries := entries_of_separated hseparated hkeys heach depth
        obtain ⟨c, r, hopen, rfl⟩ :=
          exists_cons_intercalate (mt List.map_eq_nil_iff.mp hsome)
            (List.forall_mem_map.mpr fun m hm => exists_cons_of_member (hkeys m hm))
        rw [List.cons_append, List.append_assoc, List.singleton_append]
        rw [hopen, List.cons_append] at hentries ⊢
        rw [value_of_entries (by decide) (by decide), hentries, reread?, Option.map_map,
          Option.map_map]
        rfl

/-- A text that spells a value is read to what the value is. -/
theorem isReadAs_of_spells {v : Json} (h : Spells text v) : IsReadAs v text := by
  induction h with
  | null => exact isReadAs_of_scalar (by decide) (by decide) (by decide) fun _ _ _ => rfl
  | true => exact isReadAs_of_scalar (by decide) (by decide) (by decide) fun _ _ _ => rfl
  | false => exact isReadAs_of_scalar (by decide) (by decide) (by decide) fun _ _ _ => rfl
  | num hnumeral => exact isReadAs_num hnumeral
  | str hstring => exact isReadAs_str hstring
  | arr items heach ih => exact isReadAs_arr (fun i hi => exists_cons_of_spells (heach i hi)) ih
  | obj members hkeys _ ih => exact isReadAs_obj hkeys ih

end Values

section DistinctKeys

/-- Whatever is read with this fuel has no key twice in any object. -/
structure ReadsApart (fuel : Nat) : Prop where
  value : ∀ {depth : Nat} {s rest : List Char} {v : Json},
    Parser.value fuel depth s = some (v, rest) → v.KeysApart
  items : ∀ {depth : Nat} {s rest : List Char} {vs : List Json},
    Parser.items fuel depth s = some (vs, rest) → ∀ v ∈ vs, v.KeysApart
  entries : ∀ {depth : Nat} {s rest : List Char} {kvs : List (String × Json)},
    Parser.entries fuel depth s = some (kvs, rest) → ∀ kv ∈ kvs, kv.2.KeysApart

theorem keysApart_of_scalar {s rest : List Char} {v : Json} (h : scalar s = some (v, rest)) :
    v.KeysApart := by
  unfold scalar at h
  split at h
  · obtain ⟨_, -, hv⟩ := Option.map_eq_some_iff.mp h
    cases hv
    trivial
  · rw [word, Option.ite_none_right_eq_some] at h
    cases h.2
    trivial
  · rw [word, Option.ite_none_right_eq_some] at h
    cases h.2
    trivial
  · rw [word, Option.ite_none_right_eq_some] at h
    cases h.2
    trivial
  · obtain ⟨_, -, hv⟩ := Option.bind_eq_some_iff.mp h
    obtain ⟨_, -, hv⟩ := Option.map_eq_some_iff.mp hv
    cases hv
    trivial

variable {fuel depth : Nat} {s rest : List Char}

theorem ReadsApart.value_succ (h : ReadsApart fuel) {v : Json}
    (hread : Parser.value (fuel + 1) depth s = some (v, rest)) : v.KeysApart := by
  unfold Parser.value at hread
  split at hread
  · cases hread
  · cases hread
  · split at hread
    · cases hread
      trivial
    · obtain ⟨⟨vs, _⟩, hvs, hv⟩ := Option.map_eq_some_iff.mp hread
      cases hv
      exact keysApart_arr_iff.mpr (h.items hvs)
  · split at hread
    · cases hread
      exact keysApart_obj_iff.mpr ⟨List.nodup_nil, by simp⟩
    · obtain ⟨⟨kvs, _⟩, hkvs, hv⟩ := Option.map_eq_some_iff.mp hread
      cases hv
      have hgathers := Object.gathers_ofList kvs
      refine keysApart_obj_iff.mpr ⟨hgathers.nodup, ?_⟩
      intro kv hkv
      exact h.entries hkvs kv (hgathers.mem_of_mem hkv)
  · exact keysApart_of_scalar hread

theorem ReadsApart.items_succ (h : ReadsApart fuel) {vs : List Json}
    (hread : Parser.items (fuel + 1) depth s = some (vs, rest)) : ∀ v ∈ vs, v.KeysApart := by
  unfold Parser.items at hread
  split at hread
  · cases hread
  · next v r hv =>
    split at hread
    · cases hread
      exact List.forall_mem_singleton.mpr (h.value hv)
    · obtain ⟨⟨more, _⟩, hmore, heq⟩ := Option.map_eq_some_iff.mp hread
      cases heq
      exact List.forall_mem_cons.mpr ⟨h.value hv, h.items hmore⟩
    · cases hread

theorem ReadsApart.entries_succ (h : ReadsApart fuel) {kvs : List (String × Json)}
    (hread : Parser.entries (fuel + 1) depth s = some (kvs, rest)) :
    ∀ kv ∈ kvs, kv.2.KeysApart := by
  unfold Parser.entries at hread
  split at hread
  · cases hread
  · split at hread
    · cases hread
    · next k _ _ v r hv =>
      split at hread
      · cases hread
        exact List.forall_mem_singleton.mpr (h.value hv)
      · obtain ⟨⟨more, _⟩, hmore, heq⟩ := Option.map_eq_some_iff.mp hread
        cases heq
        exact List.forall_mem_cons.mpr ⟨h.value hv, h.entries hmore⟩
      · cases hread

/-- No object that is read has a key twice. -/
theorem readsApart (fuel : Nat) : ReadsApart fuel := by
  induction fuel with
  | zero =>
      constructor
      · intro depth s rest v h
        simp [Parser.value] at h
      · intro depth s rest vs h
        simp [Parser.items] at h
      · intro depth s rest kvs h
        simp [Parser.entries] at h
  | succ fuel ih => exact ⟨ih.value_succ, ih.items_succ, ih.entries_succ⟩

end DistinctKeys

end Parser

/-- A text that spells a value is parsed to what the value is. -/
theorem parse?_of_spells {text : List Char} {v : Json} (h : Spells text v) :
    parse? (String.ofList text) = v.reread? Parser.maxDepth := by
  have hfuel : text.length ≤ Parser.fuelFor text := by
    rw [Parser.fuelFor]
    omega
  have hread := Parser.isReadAs_of_spells h _ Parser.maxDepth [] hfuel Parser.closes_nil
  rw [List.append_nil] at hread
  rw [parse?, String.toList_ofList, hread]
  cases v.reread? Parser.maxDepth with
  | none => rfl
  | some w => rfl

/-- A value that is parsed has no key twice in any object. -/
theorem keysApart_of_parse? {text : String} {v : Json} (h : parse? text = some v) :
    v.KeysApart := by
  simp only [parse?, Parser.complete] at h
  split at h
  · next hread =>
    rw [Option.ite_none_right_eq_some] at h
    cases h.2
    exact (Parser.readsApart _).value hread
  · cases h

end Json

end ManifestForm
