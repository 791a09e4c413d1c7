import ManifestForm.Proofs.Json.Spelling

/-!
# Spelled strings and numerals are read

What is read of a string does not depend on what stands behind it, and what is read of a numeral
only on its ending there. Each integer of 64 bits is read to itself.
-/

namespace ManifestForm

namespace Json.Parser

section Ends

/-- What stands behind a value without blanks: nothing, a comma or a closing bracket. -/
def Closes (rest : List Char) : Prop := ∀ c ∈ rest.head?, c = ',' ∨ c = ']' ∨ c = '}'

variable {rest : List Char}

theorem closes_nil : Closes [] := by
  intro c hc
  cases hc

theorem closes_comma (rest : List Char) : Closes (',' :: rest) := by
  intro c hc
  exact Or.inl (Option.mem_some_iff.mp hc).symm

theorem closes_bracket (rest : List Char) : Closes (']' :: rest) := by
  intro c hc
  exact Or.inr (Or.inl (Option.mem_some_iff.mp hc).symm)

theorem closes_brace (rest : List Char) : Closes ('}' :: rest) := by
  intro c hc
  exact Or.inr (Or.inr (Option.mem_some_iff.mp hc).symm)

theorem skipBlank_cons {c : Char} (h : isBlank c = false) (rest : List Char) :
    skipBlank (c :: rest) = c :: rest := by
  rw [skipBlank, List.dropWhile_cons, if_neg (Bool.eq_false_iff.mp h)]

end Ends

section Strings

theorem isLowSurrogate_of_isValidChar {n : Nat} (h : n.isValidChar) :
    isLowSurrogate n = false := by
  unfold Nat.isValidChar at h
  simp only [isLowSurrogate, Bool.and_eq_false_iff, decide_eq_false_iff_not]
  omega

/-- Half of a surrogate pair is no character. -/
theorem isHighSurrogate_of_isValidChar {n : Nat} (h : n.isValidChar) :
    isHighSurrogate n = false := by
  unfold Nat.isValidChar at h
  simp only [isHighSurrogate, Bool.and_eq_false_iff, decide_eq_false_iff_not]
  omega

/-- The characters behind an opening quote are read up to the closing one. -/
theorem stringTail_append {text cs : List Char} (h : SpellsChars text cs) (rest : List Char) :
    stringTail (text ++ '"' :: rest) = some (cs, rest) := by
  induction h with
  | nil => rfl
  | @plain c text cs hcontrol hquote hbackslash _ ih =>
      rw [List.cons_append, stringTail]
      · simp [ih, hbackslash, hcontrol]
      · exact hquote
      · exact fun _ _ _ _ _ h => absurd h hbackslash
      · exact fun _ _ h => absurd h hbackslash
  | @escaped letter c text cs hstands _ ih =>
      rw [List.cons_append, List.cons_append, stringTail]
      · simp [ih, hstands]
      · rintro _ _ _ _ _ rfl
        cases hstands
  | @numbered p q r s n text cs hnumber hvalid _ ih =>
      have hlow := isLowSurrogate_of_isValidChar hvalid
      have hhigh := isHighSurrogate_of_isValidChar hvalid
      simp only [List.cons_append]
      rw [stringTail]
      simp [hnumber, hlow, hhigh, ih]

/-- A string that is passed over may also have halves of surrogate pairs, but need not. -/
theorem skipString_append {text cs : List Char} (h : SpellsChars text cs) (rest : List Char) :
    skipString (text ++ '"' :: rest) = some rest := by
  induction h with
  | nil => rfl
  | @plain c text cs hcontrol hquote hbackslash _ ih =>
      rw [List.cons_append, skipString]
      · simp [ih, hcontrol]
      · exact hquote
      · exact fun _ _ _ _ _ h => absurd h hbackslash
      · exact fun _ _ h => absurd h hbackslash
  | @escaped letter c text cs hstands _ ih =>
      rw [List.cons_append, List.cons_append, skipString]
      · simp [ih, hstands]
      · rintro _ _ _ _ _ rfl
        cases hstands
  | @numbered p q r s n text cs hnumber hvalid _ ih =>
      simp only [List.cons_append]
      rw [skipString]
      simp [hnumber, ih]

/-- A key is read up to behind its colon. -/
theorem key_append {text : List Char} {k : String} (h : SpellsString text k) (rest : List Char) :
    key (text ++ ':' :: rest) = some (k, rest) := by
  cases h with
  | @intro text s hchars =>
      have hread := stringTail_append hchars (':' :: rest)
      simp only [List.cons_append, List.append_assoc, List.nil_append]
      simp only [key, skipBlank_cons (c := '"') (by decide), hread,
        skipBlank_cons (c := ':') (by decide), String.ofList_toList]

theorem skipKey_append {text : List Char} {k : String} (h : SpellsString text k)
    (rest : List Char) : skipKey (text ++ ':' :: rest) = some rest := by
  cases h with
  | @intro text s hchars =>
      have hread := skipString_append hchars (':' :: rest)
      simp only [List.cons_append, List.append_assoc, List.nil_append]
      simp only [skipKey, skipBlank_cons (c := '"') (by decide), hread, Option.map_some,
        skipBlank_cons (c := ':') (by decide)]

end Strings

section Numerals

open ManifestForm.Numeral (IsDigits IsWhole IsFraction IsExponent IsUnsigned)

variable {ds tail rest : List Char}

/-- Digits are taken up to what stands behind them. -/
theorem takeWhile_digits (hds : IsDigits ds) (htail : ∀ c ∈ tail.head?, isDigit c = false) :
    (ds ++ tail).takeWhile isDigit = ds := by
  have hdigits : ∀ c ∈ ds, isDigit c = true := hds.2
  rw [List.takeWhile_append_of_pos hdigits]
  cases tail with
  | nil => simp
  | cons c tail => simp [htail c rfl]

theorem dropWhile_digits (hds : IsDigits ds) (htail : ∀ c ∈ tail.head?, isDigit c = false) :
    (ds ++ tail).dropWhile isDigit = tail := by
  have hdigits : ∀ c ∈ ds, isDigit c = true := hds.2
  rw [List.dropWhile_append_of_pos hdigits]
  cases tail with
  | nil => rfl
  | cons c tail => simp [htail c rfl]

/-- No digit stands behind a value. -/
theorem Closes.not_isDigit (h : Closes rest) : ∀ c ∈ rest.head?, isDigit c = false := by
  intro c hc
  rcases h c hc with rfl | rfl | rfl <;> decide

/-- An exponent is read to the same number whatever stands behind it. -/
theorem exponentTail_append {sign : List Char} (hsign : sign = [] ∨ sign = ['+'] ∨ sign = ['-'])
    (hds : IsDigits ds) :
    ∃ e, ∀ rest, Closes rest → exponentTail (sign ++ ds ++ rest) = some (e, rest) := by
  have htaken {rest : List Char} (hrest : Closes rest) := takeWhile_digits hds hrest.not_isDigit
  have hdropped {rest : List Char} (hrest : Closes rest) := dropWhile_digits hds hrest.not_isDigit
  have hsome : ds.isEmpty = false := List.isEmpty_eq_false_iff.mpr hds.1
  rcases hsign with rfl | rfl | rfl
  · refine ⟨natOf ds, ?_⟩
    intro rest hrest
    obtain ⟨d, ds, rfl⟩ := List.exists_cons_of_ne_nil hds.1
    have hd : isDigit d = true := hds.2 d List.mem_cons_self
    have hminus : d ≠ '-' := by
      rintro rfl
      cases hd
    have hplus : d ≠ '+' := by
      rintro rfl
      cases hd
    rw [List.nil_append, exponentTail]
    · simp only [htaken hrest, hdropped hrest, hsome]
      rfl
    · rintro r hr
      exact hminus (List.cons.inj hr).1
    · rintro r hr
      exact hplus (List.cons.inj hr).1
  · refine ⟨natOf ds, ?_⟩
    intro rest hrest
    simp [exponentTail, htaken hrest, hdropped hrest, hds.1]
  · refine ⟨-natOf ds, ?_⟩
    intro rest hrest
    simp [exponentTail, htaken hrest, hdropped hrest, hds.1]

/-- The digits behind a point are read up to what is no part of them. -/
theorem fraction_append {text : List Char} (h : IsFraction text) :
    ∃ ds, ∀ tail, (∀ c ∈ tail.head?, isDigit c = false ∧ c ≠ '.') →
      fraction (text ++ tail) = some (ds, tail) := by
  rcases h with rfl | ⟨ds, hds, rfl⟩
  · refine ⟨[], ?_⟩
    intro tail htail
    rw [List.nil_append, fraction]
    rintro r rfl
    exact (htail '.' rfl).2 rfl
  · refine ⟨ds, ?_⟩
    intro tail htail
    have hsome : ds.isEmpty = false := List.isEmpty_eq_false_iff.mpr hds.1
    have hstop : ∀ c ∈ tail.head?, isDigit c = false := fun c hc => (htail c hc).1
    simp [fraction, takeWhile_digits hds hstop, dropWhile_digits hds hstop, hds.1]

theorem exponent_append {text : List Char} (h : IsExponent text) :
    ∃ e, ∀ rest, Closes rest → exponent (text ++ rest) = some (e, rest) := by
  rcases h with rfl | ⟨letter, sign, ds, hletter, hsign, hds, rfl⟩
  · refine ⟨none, ?_⟩
    intro rest hrest
    rw [List.nil_append, exponent]
    · rintro r rfl
      simp [Closes] at hrest
    · rintro r rfl
      simp [Closes] at hrest
  · obtain ⟨e, he⟩ := exponentTail_append hsign hds
    refine ⟨some e, ?_⟩
    intro rest hrest
    rcases hletter with rfl | rfl
    · simp only [List.cons_append, exponent, he rest hrest, Option.map_some]
    · simp only [List.cons_append, exponent, he rest hrest, Option.map_some]

/-- An exponent is no part of the digits before it. -/
theorem head_exponent {exponent : List Char} (h : IsExponent exponent) (hrest : Closes rest) :
    ∀ c ∈ (exponent ++ rest).head?, isDigit c = false ∧ c ≠ '.' := by
  rcases h with rfl | ⟨letter, sign, ds, rfl | rfl, -, -, rfl⟩
  · intro c hc
    rcases hrest c hc with rfl | rfl | rfl <;> decide
  · intro c hc
    rw [← Option.mem_some_iff.mp hc]
    decide
  · intro c hc
    rw [← Option.mem_some_iff.mp hc]
    decide

/-- A fraction is no part of the digits before it. -/
theorem head_fraction {fraction : List Char} (h : IsFraction fraction)
    (htail : ∀ c ∈ tail.head?, isDigit c = false ∧ c ≠ '.') :
    ∀ c ∈ (fraction ++ tail).head?, isDigit c = false := by
  rcases h with rfl | ⟨ds, -, rfl⟩
  · exact fun c hc => (htail c hc).1
  · intro c hc
    rw [← Option.mem_some_iff.mp hc]
    decide

/-- A number without a sign is read part by part. -/
theorem unsigned_of_parts {whole tail tail' rest ds : List Char} {e : Option Int}
    (hwhole : IsWhole whole) (hstop : ∀ c ∈ tail.head?, isDigit c = false)
    (hfraction : fraction tail = some (ds, tail')) (hexponent : exponent tail' = some (e, rest))
    (negative : Bool) :
    unsigned negative (whole ++ tail) = some (⟨negative, whole, ds, e⟩, rest) := by
  have hvalid : (whole.isEmpty || (whole.head? = some '0' && whole.length ≠ 1)) = false := by
    have hsome : whole.isEmpty = false := List.isEmpty_eq_false_iff.mpr hwhole.1.1
    rw [hsome, Bool.false_or, Bool.and_eq_false_iff, decide_eq_false_iff_not,
      decide_eq_false_iff_not, not_not]
    by_cases hzero : whole.head? = some '0'
    · exact Or.inr (by rw [hwhole.2 hzero]; rfl)
    · exact Or.inl hzero
  rw [unsigned, takeWhile_digits hwhole.1 hstop, dropWhile_digits hwhole.1 hstop, hfraction]
  simp only [hvalid, hexponent, Option.map_some]
  rfl

theorem unsigned_append {text : List Char} (h : IsUnsigned text) (negative : Bool) :
    ∃ n, ∀ rest, Closes rest → unsigned negative (text ++ rest) = some (n, rest) := by
  obtain @⟨whole, fraction, exponent, hwhole, hfraction, hexponent⟩ := h
  obtain ⟨ds, hds⟩ := fraction_append hfraction
  obtain ⟨e, he⟩ := exponent_append hexponent
  refine ⟨⟨negative, whole, ds, e⟩, ?_⟩
  intro rest hrest
  have htail := head_exponent hexponent hrest
  rw [List.append_assoc, List.append_assoc]
  exact unsigned_of_parts hwhole (head_fraction hfraction htail) (hds _ htail) (he rest hrest)
    negative

/-- A whole number ends where nothing more of a number stands. -/
theorem unsigned_append_of_isWhole (h : IsWhole ds) (hrest : Closes rest) (negative : Bool) :
    unsigned negative (ds ++ rest) = some (⟨negative, ds, [], none⟩, rest) := by
  have hfraction : fraction rest = some ([], rest) := by
    rw [fraction]
    rintro r rfl
    simp [Closes] at hrest
  have hexponent : exponent rest = some (none, rest) := by
    rw [exponent]
    · rintro r rfl
      simp [Closes] at hrest
    · rintro r rfl
      simp [Closes] at hrest
  exact unsigned_of_parts h hrest.not_isDigit hfraction hexponent negative

/-- A number without a sign starts with a digit. -/
theorem exists_digit {text : List Char} (h : IsUnsigned text) :
    ∃ c r, text = c :: r ∧ isDigit c = true := by
  obtain @⟨whole, fraction, exponent, hwhole, -, -⟩ := h
  obtain ⟨c, r, rfl⟩ := List.exists_cons_of_ne_nil hwhole.1.1
  exact ⟨c, r ++ fraction ++ exponent, rfl, hwhole.1.2 c List.mem_cons_self⟩

/-- A numeral is read to the same number whatever stands behind it. -/
theorem numeral_append {text : List Char} (h : IsNumeral text) :
    ∃ n, ∀ rest, Closes rest → numeral (text ++ rest) = some (n, rest) := by
  cases h with
  | unsigned hunsigned =>
      obtain ⟨n, hn⟩ := unsigned_append hunsigned false
      refine ⟨n, ?_⟩
      intro rest hrest
      rw [numeral]
      · exact hn rest hrest
      · intro r hr
        obtain ⟨c, r', rfl, hc⟩ := exists_digit hunsigned
        rw [(List.cons.inj hr).1] at hc
        cases hc
  | negative hunsigned =>
      obtain ⟨n, hn⟩ := unsigned_append hunsigned true
      exact ⟨n, hn⟩

/-- A character that a numeral can start with. -/
def StartsNumeral (c : Char) : Prop := isDigit c = true ∨ c = '-'

/-- A digit or a minus is told from every other character. -/
theorem StartsNumeral.ne {c d : Char} (h : StartsNumeral c) (hd : isDigit d = false)
    (hminus : d ≠ '-') : c ≠ d := by
  rintro rfl
  rcases h with hdigit | rfl
  · rw [hdigit] at hd
    cases hd
  · exact hminus rfl

theorem StartsNumeral.not_isBlank {c : Char} (h : StartsNumeral c) : isBlank c = false := by
  simp only [isBlank, Bool.or_eq_false_iff, decide_eq_false_iff_not]
  exact ⟨⟨⟨h.ne (by decide) (by decide), h.ne (by decide) (by decide)⟩,
    h.ne (by decide) (by decide)⟩, h.ne (by decide) (by decide)⟩

theorem exists_cons_of_isNumeral {text : List Char} (h : IsNumeral text) :
    ∃ c r, text = c :: r ∧ StartsNumeral c := by
  cases h with
  | unsigned hunsigned =>
      obtain ⟨c, r, htext, hc⟩ := exists_digit hunsigned
      exact ⟨c, r, htext, Or.inl hc⟩
  | negative hunsigned => exact ⟨_, _, rfl, Or.inr rfl⟩

end Numerals

end Json.Parser

/-- What the text of a number is read to, or `none` if it is too large. -/
def Number.reread? (n : Number) : Option Number :=
  (Json.Parser.numeral n.text).bind fun (m, _) => m.value?

section Integers

open Json.Parser

/-- The digits of a number that fits 64 bits add up to it, and none is dropped. -/
theorem Numeral.foldl_toDigits {n : Nat} (h : n ≤ maxSignificand) :
    (Nat.toDigits 10 n).foldl addWhole (0, 0) = (n, 0) := by
  have hdigit : ∀ d < 10, digitValue d.digitChar = d := by decide
  induction n using Nat.strongRecOn with
  | ind n ih =>
      rcases Nat.lt_or_ge n 10 with hsmall | hlarge
      · rw [Nat.toDigits_of_lt_base hsmall, List.foldl_cons, List.foldl_nil, addWhole,
          hdigit n hsmall]
        simp [h]
      · have hfront := ih (n / 10) (Nat.div_lt_self (by omega) (by decide))
          (Nat.le_trans (Nat.div_le_self n 10) h)
        rw [Nat.toDigits_of_base_le (by decide) hlarge, List.foldl_append, hfront,
          List.foldl_cons, List.foldl_nil, addWhole, hdigit _ (Nat.mod_lt n (by decide)),
          Nat.div_add_mod' n 10, if_pos ⟨rfl, h⟩]

theorem numeral_of_isWhole {ds : List Char} (h : Numeral.IsWhole ds) :
    numeral ds = some (⟨false, ds, [], none⟩, []) := by
  have hread := unsigned_append_of_isWhole h closes_nil false
  rw [List.append_nil] at hread
  rw [numeral, hread]
  rintro r rfl
  exact absurd (h.1.2 '-' List.mem_cons_self) (by decide)

theorem numeral_minus_of_isWhole {ds : List Char} (h : Numeral.IsWhole ds) :
    numeral ('-' :: ds) = some (⟨true, ds, [], none⟩, []) := by
  have hread := unsigned_append_of_isWhole h closes_nil true
  rwa [List.append_nil] at hread

/-- An integer of 64 bits is read to itself. -/
theorem Number.reread?_int {n : Int} (hleast : -(Nat.pow 2 63 : Nat) ≤ n)
    (hmost : n ≤ Json.maxInt) : (Number.int n).reread? = some (.int n) := by
  rw [Number.reread?, Number.text, Int.toString_eq_repr]
  cases n with
  | ofNat m =>
      have hmax : Json.maxInt = (maxSignificand : Int) := by decide
      have hsum := Numeral.foldl_toDigits (Int.ofNat_le.mp (hmax ▸ hmost))
      rw [Int.repr, Nat.toList_repr, numeral_of_isWhole (Numeral.isWhole_toDigits m),
        Option.bind_some]
      simp [Numeral.value?, hsum]
  | negSucc m =>
      have hfits : m + 1 ≤ Nat.pow 2 63 := by omega
      have hsum := Numeral.foldl_toDigits
        (Nat.le_trans hfits (by decide : Nat.pow 2 63 ≤ maxSignificand))
      have hread := numeral_minus_of_isWhole (Numeral.isWhole_toDigits (m + 1))
      rw [Int.repr, String.toList_append, Nat.toList_repr]
      change (numeral ('-' :: Nat.toDigits 10 (m + 1))).bind _ = _
      rw [hread, Option.bind_some]
      have hkept : ¬ (m + 1 = 0 ∨ Nat.pow 2 63 < m + 1) := by omega
      simp only [Numeral.value?, hsum, if_neg hkept]
      rfl

end Integers

end ManifestForm
