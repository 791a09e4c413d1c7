import ManifestForm.Manifest.Load
import Mathlib.Tactic.SplitIfs

/-!
# Tags for the types that scalars have anyway

A plain scalar under the tag of the type that it has without one keeps its
value, unless it is an integer that is not written as a decimal number with at
most one sign. Under a tag for integers, digits are always decimal ones, so a
legacy octal number becomes another number, and what is no decimal number
becomes a string.
-/

namespace ManifestForm

namespace Decimal

variable {base : Nat} {cs : List Char}

section Digits

theorem digit?_lt {c : Char} {d : Nat} (hdigit : digit? base c = some d) : d < base := by
  simp only [digit?] at hdigit
  split_ifs at hdigit <;> simp_all

/-- A digit of a base has the same value in a greater one. -/
theorem digit?_mono {base' : Nat} (hle : base ≤ base') {c : Char} {d : Nat}
    (hdigit : digit? base c = some d) : digit? base' c = some d := by
  simp only [digit?] at hdigit ⊢
  split_ifs at hdigit ⊢ <;> simp_all <;> omega

/-- Adding digits to a number goes on only behind a number, and only with a digit. -/
theorem isSome_of_foldl_digits {start : Option Nat} {n : Nat}
    (hread : cs.foldl (fun n c => do return (← n) * base + (← digit? base c)) start = some n) :
    start.isSome ∧ ∀ c ∈ cs, (digit? base c).isSome := by
  induction cs generalizing start with
  | nil => simp_all
  | cons c cs ih =>
      obtain ⟨hsum, hothers⟩ := ih hread
      cases start with
      | none => cases hsum
      | some m =>
          cases hfirst : digit? base c with
          | none => simp [hfirst] at hsum
          | some d => simpa [hfirst] using hothers

theorem isSome_digit? {n : Nat} (hread : natural? base cs = some n) :
    ∀ c ∈ cs, (digit? base c).isSome := by
  unfold natural? at hread
  split_ifs at hread
  exact (isSome_of_foldl_digits hread).2

theorem natural?_eq_none {c : Char} (hmem : c ∈ cs) (hbad : digit? base c = none) :
    natural? base cs = none := by
  cases hread : natural? base cs with
  | none => rfl
  | some n =>
      have hdigit := isSome_digit? hread c hmem
      rw [hbad] at hdigit
      cases hdigit

theorem natural?_three {a b c : Char} {n : Nat} (hread : natural? base [a, b, c] = some n) :
    ∃ x y z, digit? base a = some x ∧ digit? base b = some y ∧ digit? base c = some z ∧
      n = (x * base + y) * base + z := by
  have hdigits := isSome_digit? hread
  obtain ⟨x, hx⟩ := Option.isSome_iff_exists.mp (hdigits a (by simp))
  obtain ⟨y, hy⟩ := Option.isSome_iff_exists.mp (hdigits b (by simp))
  obtain ⟨z, hz⟩ := Option.isSome_iff_exists.mp (hdigits c (by simp))
  refine ⟨x, y, z, hx, hy, hz, ?_⟩
  simpa [natural?, hx, hy, hz, eq_comm] using hread

/-- Without a sign a number is read by its digits. -/
theorem int64?_of_digits {c : Char} (hnoMinus : c ≠ '-') (hnoPlus : c ≠ '+') :
    int64? base (c :: cs) = ((natural? base (c :: cs)).map Int.ofNat).filter fits64 := by
  unfold int64? integer?
  split
  · rename_i hsame
    cases hsame
    exact absurd rfl hnoMinus
  · rename_i hsame
    cases hsame
    exact absurd rfl hnoPlus
  · rfl

end Digits

end Decimal

namespace Manifest

open Decimal

section Integers

/-- An integer behind `0x` or `0o`, or behind a plus before another sign. -/
inductive IsPrefixed : List Char → Prop
  | hexadecimal {cs : List Char} {n : Int} (hread : int64? 16 cs = some n) :
      IsPrefixed ('0' :: 'x' :: cs)
  | octal {cs : List Char} {n : Int} (hread : int64? 8 cs = some n) : IsPrefixed ('0' :: 'o' :: cs)
  | twoSigns {sign : Char} {cs : List Char} {n : Int} (hsigned : sign = '+' ∨ sign = '-')
      (hread : int64? 10 (sign :: cs) = some n) : IsPrefixed ('+' :: sign :: cs)

/-- A legacy octal number of at least two digits that count. -/
inductive IsLongOctal : List Char → Prop
  | intro {a b c : Char} {n : Nat} (hread : natural? 8 [a, b, c] = some n) (hlong : 8 ≤ n) :
      IsLongOctal ['0', a, b, c]

theorem legacyOctal?_eq_some {cs : List Char} {n : Int} (hread : legacyOctal? cs = some n) :
    ∃ a b c k, cs = ['0', a, b, c] ∧ natural? 8 [a, b, c] = some k ∧ n = k := by
  unfold legacyOctal? at hread
  split at hread
  · obtain ⟨k, hoctal, rfl⟩ := Option.map_eq_some_iff.mp hread
    exact ⟨_, _, _, k, rfl, hoctal, rfl⟩
  · cases hread

/-- Legacy octal numbers are decimal ones too, with the same value up to a single digit. -/
theorem int64?_of_legacyOctal {cs : List Char} {n : Int} (hread : legacyOctal? cs = some n) :
    ∃ m, int64? 10 cs = some m ∧ (m = n ↔ ¬ IsLongOctal cs) := by
  obtain ⟨a, b, c, k, rfl, hoctal, rfl⟩ := legacyOctal?_eq_some hread
  obtain ⟨x, y, z, hx, hy, hz, hvalue⟩ := natural?_three hoctal
  have hltX := digit?_lt hx
  have hltY := digit?_lt hy
  have hltZ := digit?_lt hz
  refine ⟨((x * 10 + y) * 10 + z : Nat), ?_, ?_⟩
  · have hzero : digit? 10 '0' = some 0 := rfl
    have hdecimal : natural? 10 ['0', a, b, c] = some ((x * 10 + y) * 10 + z) := by
      simp [natural?, hzero, digit?_mono (show 8 ≤ 10 by decide) hx,
        digit?_mono (show 8 ≤ 10 by decide) hy, digit?_mono (show 8 ≤ 10 by decide) hz]
    have hfits : fits64 ((x * 10 + y) * 10 + z : Nat) := by
      simp [fits64]
      omega
    rw [int64?_of_digits (by decide) (by decide), hdecimal, Option.map_some, Option.filter_some]
    exact if_pos hfits
  · have hlongIff : IsLongOctal ['0', a, b, c] ↔ 8 ≤ k := by
      constructor
      · rintro ⟨hoctal', hlong⟩
        exact (Option.some.inj (hoctal.symm.trans hoctal')) ▸ hlong
      · exact .intro hoctal
    rw [hlongIff]
    omega

/-- A character that is no digit makes no number in its place behind another one. -/
theorem int64?_eq_none {first c : Char} (hnoMinus : first ≠ '-') (hbad : digit? 10 c = none)
    (cs : List Char) : int64? 10 (first :: c :: cs) = none := by
  have hnoNumber : natural? 10 (c :: cs) = none := natural?_eq_none List.mem_cons_self hbad
  by_cases hplus : first = '+'
  · subst hplus
    simp [int64?, integer?, hnoNumber]
  · have hnoDigits : natural? 10 (first :: c :: cs) = none := natural?_eq_none (by simp) hbad
    rw [int64?_of_digits hnoMinus hplus, hnoDigits]
    rfl

/-- Behind a prefix there is no decimal number. -/
theorem IsPrefixed.int64?_eq_none {cs : List Char} (hprefixed : IsPrefixed cs) :
    int64? 10 cs = none := by
  cases hprefixed with
  | hexadecimal hread => exact Manifest.int64?_eq_none (by decide) (by decide) _
  | octal hread => exact Manifest.int64?_eq_none (by decide) (by decide) _
  | twoSigns hsigns hread =>
      have hnoDigit : ∀ sign, sign = '+' ∨ sign = '-' → digit? 10 sign = none := by
        rintro sign (rfl | rfl) <;> decide
      exact Manifest.int64?_eq_none (by decide) (hnoDigit _ hsigns) _

theorem IsPrefixed.isSome_coreInt? {cs : List Char} (hprefixed : IsPrefixed cs) :
    (coreInt? cs).isSome := by
  cases hprefixed with
  | hexadecimal hread => simp [coreInt?, hread]
  | octal hread => simp [coreInt?, hread]
  | twoSigns hsigns hread => simp [coreInt?, hread]

/-- A plus changes nothing, if there is no other sign behind it. -/
theorem int64?_plus {cs : List Char}
    (hunsigned : ∀ sign rest, cs = sign :: rest → sign ≠ '+' ∧ sign ≠ '-') :
    int64? 10 ('+' :: cs) = int64? 10 cs := by
  cases cs with
  | nil => rfl
  | cons c cs =>
      obtain ⟨hnoPlus, hnoMinus⟩ := hunsigned c cs rfl
      rw [int64?_of_digits hnoMinus hnoPlus]
      rfl

/-- Without a prefix the integers of plain scalars are the decimal numbers. -/
theorem coreInt?_of_not_isPrefixed {cs : List Char} (hplain : ¬ IsPrefixed cs) :
    coreInt? cs = int64? 10 cs := by
  unfold coreInt?
  split
  · have hnoHexadecimal : int64? 16 _ = none :=
      Option.eq_none_iff_forall_ne_some.mpr fun n hread => hplain (.hexadecimal hread)
    simp [hnoHexadecimal]
  · have hnoOctal : int64? 8 _ = none :=
      Option.eq_none_iff_forall_ne_some.mpr fun n hread => hplain (.octal hread)
    simp [hnoOctal]
  · rename_i cs
    cases hread : int64? 10 cs with
    | none => simp
    | some n =>
        have hunsigned : ∀ sign rest, cs = sign :: rest → sign ≠ '+' ∧ sign ≠ '-' := by
          rintro sign rest rfl
          exact not_or.mp fun hsigns => hplain (.twoSigns hsigns hread)
        simp [int64?_plus hunsigned, hread]
  · simp

end Integers

section TaggedScalars

/-- The tag, behind the core handle, of the type that a value has if it is no string and no
collection. -/
def coreSuffix? : Json → Option String
  | .null => some "null"
  | .bool _ => some "bool"
  | .num (.int _) => some "int"
  | .num (.float _) => some "float"
  | _ => none

theorem scalarValue_of_coreTag (text suffix : String) (style : Yaml.Style) :
    scalarValue text style (some ⟨coreHandle, suffix⟩) = taggedValue suffix text := by
  simp [scalarValue, Option.filter]

theorem taggedValue_int_of_some {text : String} {n : Int}
    (hread : int64? 10 text.toList = some n) : taggedValue "int" text = int n := by
  simp [taggedValue, hread]

theorem taggedValue_int_of_none {text : String} (hunread : int64? 10 text.toList = none) :
    taggedValue "int" text = .str text := by
  simp [taggedValue, hunread]

theorem IsLongOctal.isSome_legacyOctal? {cs : List Char} (hlong : IsLongOctal cs) :
    (legacyOctal? cs).isSome := by
  cases hlong with
  | intro hread hlong => simp [legacyOctal?, hread]

/-- A plain scalar that is no integer has the same value under the tag for its type. -/
theorem taggedValue_of_no_int {text suffix : String} (hnoLegacy : legacyOctal? text.toList = none)
    (hnoInt : coreInt? text.toList = none)
    (hresolved : coreSuffix? (plainValue text) = some suffix) :
    taggedValue suffix text = plainValue text := by
  unfold plainValue at hresolved ⊢
  simp only [hnoLegacy, hnoInt] at hresolved ⊢
  split_ifs at hresolved ⊢ with null true_ false_
  · cases hresolved
    rfl
  · cases hresolved
    simp_all [taggedValue]
  · cases hresolved
    simp_all [taggedValue]
  · cases hread : Decimal.double? text.toList with
    | none => simp [hread, coreSuffix?] at hresolved
    | some x =>
        simp only [hread, float, coreSuffix?, Option.some.injEq] at hresolved
        subst hresolved
        simp [taggedValue, hread]

/-- A plain scalar that has a type other than that of strings keeps its value under the tag for the
type exactly if it is no integer behind a prefix and no legacy octal number of more than one digit
that counts. The former become strings, and the latter are read as decimal numbers. -/
theorem value_under_coreTag {text suffix : String}
    (hresolved : coreSuffix? (scalarValue text .plain none) = some suffix) (style : Yaml.Style) :
    (scalarValue text style (some ⟨coreHandle, suffix⟩) = scalarValue text .plain none ↔
      ¬ IsPrefixed text.toList ∧ ¬ IsLongOctal text.toList) ∧
    (IsPrefixed text.toList → suffix = "int" ∧
      scalarValue text style (some ⟨coreHandle, suffix⟩) = .str text) ∧
    (IsLongOctal text.toList → suffix = "int" ∧ ∃ n, int64? 10 text.toList = some n ∧
      scalarValue text style (some ⟨coreHandle, suffix⟩) = int n) := by
  have hplain : scalarValue text .plain none = plainValue text := rfl
  rw [hplain] at hresolved
  rw [hplain, scalarValue_of_coreTag]
  -- A legacy octal number is looked for before all others, so its decimal value never counts.
  cases hlegacy : legacyOctal? text.toList with
  | some n =>
      have hvalue : plainValue text = int n := by simp [plainValue, hlegacy]
      rw [hvalue] at hresolved
      obtain rfl : "int" = suffix := Option.some.inj hresolved
      obtain ⟨m, hdecimal, hsame⟩ := int64?_of_legacyOctal hlegacy
      have hnotPrefixed : ¬ IsPrefixed text.toList := fun hprefixed => by
        cases hdecimal.symm.trans hprefixed.int64?_eq_none
      rw [hvalue, taggedValue_int_of_some hdecimal]
      exact ⟨by simp [int, hsame, hnotPrefixed], fun hprefixed => absurd hprefixed hnotPrefixed,
        fun hlong => ⟨rfl, m, hdecimal, rfl⟩⟩
  | none =>
      have hnotLong : ¬ IsLongOctal text.toList := fun hlong => by
        simpa [hlegacy] using hlong.isSome_legacyOctal?
      cases hcore : coreInt? text.toList with
      | some n =>
          have hvalue : plainValue text = int n := by simp [plainValue, hlegacy, hcore]
          rw [hvalue] at hresolved
          obtain rfl : "int" = suffix := Option.some.inj hresolved
          rw [hvalue]
          by_cases hprefixed : IsPrefixed text.toList
          · rw [taggedValue_int_of_none hprefixed.int64?_eq_none]
            exact ⟨by simp [int, hprefixed], fun _ => ⟨rfl, rfl⟩,
              fun hlong => absurd hlong hnotLong⟩
          · rw [coreInt?_of_not_isPrefixed hprefixed] at hcore
            rw [taggedValue_int_of_some hcore]
            exact ⟨by simp [hprefixed, hnotLong], fun hhere => absurd hhere hprefixed,
              fun hlong => absurd hlong hnotLong⟩
      | none =>
          have hnotPrefixed : ¬ IsPrefixed text.toList := fun hprefixed => by
            simpa [hcore] using hprefixed.isSome_coreInt?
          rw [taggedValue_of_no_int hlegacy hcore hresolved]
          exact ⟨by simp [hnotPrefixed, hnotLong], fun hprefixed => absurd hprefixed hnotPrefixed,
            fun hlong => absurd hlong hnotLong⟩

/-- A file mode becomes another number under the tag for integers. -/
theorem value_of_fileMode :
    coreSuffix? (scalarValue "0644" .plain none) = some "int" ∧
      scalarValue "0644" .plain none = int 420 ∧
      scalarValue "0644" .plain (some ⟨coreHandle, "int"⟩) = int 644 := by
  have hresolved : coreSuffix? (scalarValue "0644" .plain none) = some "int" := by decide
  have hoctal : natural? 8 ['6', '4', '4'] = some 420 := by decide
  have hdecimal : int64? 10 "0644".toList = some 644 := by decide
  obtain ⟨-, -, htagged⟩ := value_under_coreTag hresolved .plain
  obtain ⟨-, n, hread, hvalue⟩ := htagged (.intro hoctal (by decide))
  rw [hdecimal, Option.some.injEq] at hread
  exact ⟨hresolved, rfl, hread ▸ hvalue⟩

end TaggedScalars

end Manifest

end ManifestForm
