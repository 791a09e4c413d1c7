import ManifestForm.Proofs.Json.Reading

/-!
# Spelled values are passed over

A value that is passed over may be any that is spelled: it may nest without limit, and its numbers
may be too large.
-/

namespace ManifestForm

namespace Json.Parser

variable {text : List Char}

/-- The text is passed over, whatever stands behind it. -/
def IsPassed (text : List Char) : Prop :=
  ∀ fuel rest, text.length ≤ fuel → Closes rest → skipValue fuel (text ++ rest) = some rest

variable {fuel : Nat} {s rest : List Char}

/-- The items behind an opening bracket are passed with their commas and the closing one. -/
theorem skipItems_of_separated {items : List (List Char × Json)}
    (h : Separated Prod.fst (']' :: rest) fuel items s) (heach : ∀ i ∈ items, IsPassed i.1) :
    skipItems fuel s = some rest := by
  induction h with
  | @last fuel item hfuel =>
      have hpass := List.forall_mem_singleton.mp heach fuel _ hfuel (closes_bracket rest)
      simp [skipItems, hpass, skipBlank_cons (c := ']') (by decide)]
  | @more fuel item items s hfuel hrest ih =>
      obtain ⟨hpass, hmore⟩ := List.forall_mem_cons.mp heach
      rw [skipItems, hpass fuel _ hfuel (closes_comma s)]
      simp only [Option.map_some, skipBlank_cons (c := ',') (by decide), ih hmore]

/-- The members behind an opening brace are passed with their commas and the closing one. -/
theorem skipEntries_of_separated {members : List Member}
    (h : Separated Member.text ('}' :: rest) fuel members s)
    (hkeys : ∀ m ∈ members, SpellsString m.keyText m.key)
    (heach : ∀ m ∈ members, IsPassed m.valueText) : skipEntries fuel s = some rest := by
  induction h with
  | @last fuel m hfuel =>
      have hkey := List.forall_mem_singleton.mp hkeys
      have hpass := List.forall_mem_singleton.mp heach fuel _
        (Nat.le_trans m.length_valueText_le hfuel) (closes_brace rest)
      rw [Member.text, List.append_assoc, List.cons_append, skipEntries, skipKey_append hkey]
      simp [hpass, skipBlank_cons (c := '}') (by decide)]
  | @more fuel m members s hfuel hrest ih =>
      obtain ⟨hkey, hkeys⟩ := List.forall_mem_cons.mp hkeys
      obtain ⟨hpass, hmore⟩ := List.forall_mem_cons.mp heach
      have hpass := hpass fuel _ (Nat.le_trans m.length_valueText_le hfuel) (closes_comma s)
      rw [Member.text, List.append_assoc, List.cons_append, skipEntries, skipKey_append hkey]
      simp only [hpass, Option.map_some, skipBlank_cons (c := ',') (by decide), ih hkeys hmore]

theorem isPassed_of_scalar {c : Char} {r : List Char} (hblank : isBlank c = false)
    (hbracket : c ≠ '[') (hbrace : c ≠ '{')
    (hpass : ∀ rest, Closes rest → skipScalar (c :: r ++ rest) = some rest) :
    IsPassed (c :: r) := by
  intro fuel rest hfuel hrest
  obtain ⟨fuel, rfl⟩ := Nat.exists_eq_succ_of_ne_zero (Nat.ne_zero_of_lt hfuel)
  rw [List.cons_append]
  simp only [skipValue, skipBlank_cons hblank]
  split
  · next heq => exact absurd (List.cons.inj heq).1 hbracket
  · next heq => exact absurd (List.cons.inj heq).1 hbrace
  · exact hpass rest hrest

/-- A number is passed over by its outline, whatever its size. -/
theorem isPassed_of_isNumeral (h : IsNumeral text) : IsPassed text := by
  obtain ⟨n, hn⟩ := numeral_append h
  obtain ⟨c, r, rfl, hc⟩ := exists_cons_of_isNumeral h
  apply isPassed_of_scalar hc.not_isBlank (hc.ne (by decide) (by decide))
    (hc.ne (by decide) (by decide))
  intro rest hrest
  rw [List.cons_append, skipScalar]
  · rw [← List.cons_append, hn rest hrest, Option.map_some]
  · exact fun _ heq => hc.ne (by decide) (by decide) (List.cons.inj heq).1
  · exact fun _ heq => hc.ne (by decide) (by decide) (List.cons.inj heq).1
  · exact fun _ heq => hc.ne (by decide) (by decide) (List.cons.inj heq).1
  · exact fun _ heq => hc.ne (by decide) (by decide) (List.cons.inj heq).1

theorem isPassed_of_spellsString {s : String} (h : SpellsString text s) : IsPassed text := by
  cases h with
  | @intro text s hchars =>
      apply isPassed_of_scalar (by decide) (by decide) (by decide)
      intro rest _
      rw [List.cons_append, List.append_assoc, List.singleton_append, skipScalar,
        skipString_append hchars]

theorem isPassed_arr {items : List (List Char × Json)}
    (hstart : ∀ i ∈ items, ∃ c r, i.1 = c :: r ∧ isBlank c = false ∧ c ≠ ']')
    (heach : ∀ i ∈ items, IsPassed i.1) :
    IsPassed ('[' :: ([','].intercalate (items.map Prod.fst) ++ [']'])) := by
  intro fuel rest hfuel _
  simp only [List.length_cons, List.length_append, List.length_nil] at hfuel
  obtain ⟨fuel, rfl⟩ := Nat.exists_eq_add_of_le' (Nat.le_of_add_left_le hfuel)
  rw [List.cons_append, List.append_assoc, List.singleton_append]
  by_cases hsome : items = []
  · subst hsome
    rfl
  · have hlength : ([','].intercalate (items.map Prod.fst)).length < fuel := by omega
    have hseparated := separated_intercalate hsome hlength (']' :: rest)
    have hitems := skipItems_of_separated hseparated heach
    obtain ⟨c, r, hopen, hblank, hclose⟩ :=
      exists_cons_intercalate (mt List.map_eq_nil_iff.mp hsome) (List.forall_mem_map.mpr hstart)
    rw [hopen, List.cons_append] at hitems ⊢
    simp only [skipValue, skipBlank_cons (c := '[') (by decide), skipBlank_cons hblank]
    split
    · next heq => exact absurd (List.cons.inj heq).1 hclose
    · exact hitems

theorem isPassed_obj {members : List Member} (hkeys : ∀ m ∈ members, SpellsString m.keyText m.key)
    (heach : ∀ m ∈ members, IsPassed m.valueText) :
    IsPassed ('{' :: ([','].intercalate (members.map Member.text) ++ ['}'])) := by
  intro fuel rest hfuel _
  simp only [List.length_cons, List.length_append, List.length_nil] at hfuel
  obtain ⟨fuel, rfl⟩ := Nat.exists_eq_add_of_le' (Nat.le_of_add_left_le hfuel)
  rw [List.cons_append, List.append_assoc, List.singleton_append]
  by_cases hsome : members = []
  · subst hsome
    rfl
  · have hlength : ([','].intercalate (members.map Member.text)).length < fuel := by omega
    have hseparated := separated_intercalate hsome hlength ('}' :: rest)
    have hentries := skipEntries_of_separated hseparated hkeys heach
    obtain ⟨c, r, hopen, rfl⟩ :=
      exists_cons_intercalate (mt List.map_eq_nil_iff.mp hsome)
        (List.forall_mem_map.mpr fun m hm => exists_cons_of_member (hkeys m hm))
    rw [hopen, List.cons_append] at hentries ⊢
    simp only [skipValue, skipBlank_cons (c := '{') (by decide),
      skipBlank_cons (c := '"') (by decide), hentries]
    rfl

/-- A text that spells a value is passed over, however deep it nests and however large its numbers
are. -/
theorem isPassed_of_spells {v : Json} (h : Spells text v) : IsPassed text := by
  induction h with
  | null => exact isPassed_of_scalar (by decide) (by decide) (by decide) fun _ _ => rfl
  | true => exact isPassed_of_scalar (by decide) (by decide) (by decide) fun _ _ => rfl
  | false => exact isPassed_of_scalar (by decide) (by decide) (by decide) fun _ _ => rfl
  | num hnumeral => exact isPassed_of_isNumeral hnumeral
  | str hstring => exact isPassed_of_spellsString hstring
  | arr items heach ih => exact isPassed_arr (fun i hi => exists_cons_of_spells (heach i hi)) ih
  | obj members hkeys _ ih => exact isPassed_obj hkeys ih

end Json.Parser

end ManifestForm
