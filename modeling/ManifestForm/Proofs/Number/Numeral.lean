import ManifestForm.Json.Printer
import Mathlib.Data.List.Basic

/-!
# Numbers are written as numerals

A numeral is a whole number without a zero before other digits, then perhaps a
point and digits, then perhaps an exponent, all behind at most one minus. The
digits of a double start with a zero only if they were cut off far behind the
point, and there they need no whole part of their own.
-/

namespace ManifestForm

namespace Numeral

section Parts

/-- One digit or more. -/
def IsDigits (ds : List Char) : Prop := ds ≠ [] ∧ ∀ c ∈ ds, c.isDigit

/-- Digits that start with a zero only if it is the only one. -/
def IsWhole (ds : List Char) : Prop := IsDigits ds ∧ (ds.head? = some '0' → ds = ['0'])

def IsFraction (text : List Char) : Prop := text = [] ∨ ∃ ds, IsDigits ds ∧ text = '.' :: ds

def IsExponent (text : List Char) : Prop :=
  text = [] ∨ ∃ letter sign ds, (letter = 'e' ∨ letter = 'E') ∧
    (sign = [] ∨ sign = ['+'] ∨ sign = ['-']) ∧ IsDigits ds ∧ text = letter :: (sign ++ ds)

/-- A numeral without a sign. -/
inductive IsUnsigned : List Char → Prop
  | intro {whole fraction exponent : List Char} (hwhole : IsWhole whole)
      (hfraction : IsFraction fraction) (hexponent : IsExponent exponent) :
      IsUnsigned (whole ++ fraction ++ exponent)

end Parts

end Numeral

open Numeral

/-- The numerals of JSON. -/
inductive IsNumeral : List Char → Prop
  | unsigned {text : List Char} (hunsigned : IsUnsigned text) : IsNumeral text
  | negative {text : List Char} (hunsigned : IsUnsigned text) : IsNumeral ('-' :: text)

namespace Numeral

variable {ds : List Char}

theorem IsDigits.append_zeros (hdigits : IsDigits ds) (n : Nat) :
    IsDigits (ds ++ List.replicate n '0') := by
  refine ⟨by simp [hdigits.1], ?_⟩
  intro c hmem
  rcases List.mem_append.mp hmem with hmem | hmem
  · exact hdigits.2 c hmem
  · rw [List.eq_of_mem_replicate hmem]
    rfl

theorem isDigits_zeros_append (n : Nat) (hdigits : IsDigits ds) :
    IsDigits (List.replicate n '0' ++ ds) := by
  refine ⟨by simp [hdigits.1], ?_⟩
  intro c hmem
  rcases List.mem_append.mp hmem with hmem | hmem
  · rw [List.eq_of_mem_replicate hmem]
    rfl
  · exact hdigits.2 c hmem

theorem isWhole_zero : IsWhole ['0'] := ⟨⟨by simp, by simp⟩, fun _ => rfl⟩

/-- A single digit is a whole number. -/
theorem isWhole_of_length_one (hdigits : IsDigits ds) (hsingle : ds.length = 1) : IsWhole ds := by
  obtain ⟨c, rfl⟩ := List.length_eq_one_iff.mp hsingle
  exact ⟨hdigits, fun hfirst => by simpa using hfirst⟩

theorem isDigits_toDigits (n : Nat) : IsDigits (Nat.toDigits 10 n) :=
  ⟨Nat.toDigits_ne_nil, fun _ hmem => Nat.isDigit_of_mem_toDigits (by decide) (by decide) hmem⟩

theorem digitChar_ne_zero : ∀ n < 10, n ≠ 0 → n.digitChar ≠ '0' := by decide

/-- The first digit of a positive number is not zero. -/
theorem head?_toDigits_ne {n : Nat} (hpositive : n ≠ 0) :
    (Nat.toDigits 10 n).head? ≠ some '0' := by
  induction n using Nat.strongRecOn with
  | ind n ih =>
      rcases Nat.lt_or_ge n 10 with hdigit | hmore
      · rw [Nat.toDigits_of_lt_base hdigit, List.head?_cons]
        exact fun hsame => digitChar_ne_zero n hdigit hpositive (Option.some.inj hsame)
      · rw [Nat.toDigits_of_base_le (by decide) hmore,
          List.head?_append_of_ne_nil _ Nat.toDigits_ne_nil]
        exact ih (n / 10) (Nat.div_lt_self (by omega) (by decide)) (by omega)

theorem isWhole_toDigits (n : Nat) : IsWhole (Nat.toDigits 10 n) := by
  refine ⟨isDigits_toDigits n, ?_⟩
  intro hfirst
  rcases Nat.eq_zero_or_pos n with rfl | hpositive
  · exact Nat.toDigits_zero 10
  · exact absurd hfirst (head?_toDigits_ne (Nat.ne_of_gt hpositive))

/-- The first digits of a positive number with zeros behind them. -/
theorem isWhole_take_append_zeros {n k : Nat} (hpositive : n ≠ 0) (hsomeDigit : 0 < k) (m : Nat) :
    IsWhole ((Nat.toDigits 10 n).take k ++ List.replicate m '0') := by
  have hdigits := isDigits_toDigits n
  have htaken : IsDigits ((Nat.toDigits 10 n).take k) := by
    refine ⟨?_, fun c hmem => hdigits.2 c (List.mem_of_mem_take hmem)⟩
    simp [hdigits.1]
    omega
  refine ⟨htaken.append_zeros m, ?_⟩
  intro hfirst
  rw [List.head?_append_of_ne_nil _ htaken.1, List.head?_take, if_neg (by omega)] at hfirst
  exact absurd hfirst (head?_toDigits_ne hpositive)

/-- Digits behind a point, or a zero if there are none. -/
theorem isFraction_drop (hdigits : IsDigits ds) (k : Nat) :
    IsFraction ('.' :: (if (ds.drop k).isEmpty then ['0'] else ds.drop k)) := by
  refine .inr ⟨_, ?_, rfl⟩
  split_ifs with hnothing
  · exact isWhole_zero.1
  · exact ⟨by simpa using hnothing, fun c hmem => hdigits.2 c (List.mem_of_mem_drop hmem)⟩

end Numeral

section Layouts

namespace Binary64

/-- Digits around a point are a numeral, if a zero alone stands behind it. -/
theorem isUnsigned_withPoint {n : Nat} {whole : Int} (hbehind : n = 0 → whole ≤ 0) :
    IsUnsigned (withPoint (Nat.toDigits 10 n) whole) := by
  have hdigits := isDigits_toDigits n
  unfold withPoint
  split_ifs with hsmall
  · have hfraction : IsFraction ('.' :: (List.replicate (-whole).toNat '0' ++ Nat.toDigits 10 n)) :=
      .inr ⟨_, isDigits_zeros_append _ hdigits, rfl⟩
    simpa using IsUnsigned.intro isWhole_zero hfraction (.inl rfl)
  · have hpositive : n ≠ 0 := fun hzero => hsmall (hbehind hzero)
    have hbefore := isWhole_take_append_zeros hpositive (k := whole.toNat) (by omega)
      (whole.toNat - (Nat.toDigits 10 n).length)
    have hwritten := IsUnsigned.intro hbefore (isFraction_drop hdigits whole.toNat) (.inl rfl)
    rwa [List.append_nil] at hwritten

/-- One digit with an exponent is a numeral, whatever the digit is. -/
theorem isUnsigned_withExponent {ds : List Char} (hdigits : IsDigits ds) (e : Int) :
    IsUnsigned (withExponent ds e) := by
  obtain ⟨c, fraction, rfl⟩ := List.exists_cons_of_ne_nil hdigits.1
  have hfirst : IsWhole [c] :=
    isWhole_of_length_one ⟨by simp, fun d hmem => hdigits.2 d (by simp_all)⟩ rfl
  have hrest : IsFraction (if fraction.isEmpty then [] else '.' :: fraction) := by
    split_ifs with hnothing
    · exact .inl rfl
    · refine .inr ⟨fraction, ⟨by simpa using hnothing, ?_⟩, rfl⟩
      exact fun d hmem => hdigits.2 d (List.mem_cons_of_mem c hmem)
  have hexponent :
      IsExponent ('e' :: (if e < 0 then '-' else '+') :: Nat.toDigits 10 e.natAbs) := by
    refine .inr ⟨'e', [if e < 0 then '-' else '+'], _, .inl rfl, ?_, isDigits_toDigits _, rfl⟩
    split_ifs
    · exact .inr (.inr rfl)
    · exact .inr (.inl rfl)
  exact .intro hfirst hrest hexponent

end Binary64

end Layouts

namespace Shortest

theorem dropZeros_of_zero {fuel : Nat} {d : Nat × Int} (hzero : (dropZeros fuel d).1 = 0) :
    dropZeros fuel d = d := by
  induction fuel generalizing d with
  | zero => rfl
  | succ fuel ih =>
      obtain ⟨n, e⟩ := d
      rw [dropZeros] at hzero ⊢
      split_ifs at hzero ⊢ with more
      · have hsame := ih hzero
        rw [hsame] at hzero
        exact absurd hzero (by simp only; omega)
      · rfl

theorem le_roundHalfEven (num den : Nat) : num / den ≤ Binary64.roundHalfEven num den := by
  unfold Binary64.roundHalfEven
  dsimp only
  split_ifs <;> omega

/-- Zero reads back to a number only if the interval reaches down to it. -/
theorem contains_zero {i : Interval} {den : Nat} (haway : 0 < i.low) (hpositive : 0 < den) :
    i.contains 0 den = false := by
  have hbelow : 0 < i.low * den := Nat.mul_pos haway hpositive
  unfold Interval.contains
  split_ifs
  · simp only [Nat.zero_mul, Bool.and_eq_false_iff, decide_eq_false_iff_not]
    omega
  · simp only [Nat.zero_mul, Bool.and_eq_false_iff, decide_eq_false_iff_not]
    omega

theorem gridScale_pos (unit : Int) :
    0 < (if 0 ≤ unit then (Nat.pow 10 unit.toNat, 1) else (1, Nat.pow 10 (-unit).toNat)).2 := by
  split_ifs
  · exact Nat.one_pos
  · exact Nat.pow_pos (by decide)

/-- A neighbour that reads back to a number apart from zero is not zero. -/
theorem onGrid?_ne_zero {i : Interval} (haway : 0 < i.low) {unit : Int} {n : Nat}
    (hhit : onGrid? i unit = some n) : n ≠ 0 := by
  rw [onGrid?] at hhit
  set scale := if 0 ≤ unit then (Nat.pow 10 unit.toNat, 1) else (1, Nat.pow 10 (-unit).toNat)
    with hscale
  have hfitsNeZero : ∀ {m}, i.contains (m * scale.1) scale.2 = true → m ≠ 0 := by
    rintro _ hfits rfl
    rw [Nat.zero_mul, contains_zero haway (hscale ▸ gridScale_pos unit)] at hfits
    cases hfits
  dsimp only at hhit
  split_ifs at hhit with hboth hlower hupper
  · -- Rounding does not go below the lower neighbour, which fits here.
    have hleast := hfitsNeZero (Bool.and_eq_true_iff.mp hboth).1
    have habove := le_roundHalfEven (i.value * scale.2) (i.denominator * scale.1)
    cases hhit
    exact Nat.ne_of_gt (Nat.lt_of_lt_of_le (Nat.pos_of_ne_zero hleast) habove)
  · cases hhit
    exact hfitsNeZero hlower
  · cases hhit
    exact hfitsNeZero hupper

/-- The first digit of a number below one stands behind the point. -/
theorem leadingExponent_lt_zero {num den : Nat} (hbelow : num < den) {fuel : Nat} {e : Int}
    (henough : e < fuel) : leadingExponent num den fuel e < 0 := by
  induction fuel generalizing e with
  | zero => exact henough
  | succ fuel ih =>
      have hstep : leadingExponent num den fuel (e - 1) < 0 := ih (by omega)
      rw [leadingExponent]
      split_ifs with whole fits fits
      · have hpower : 1 ≤ Nat.pow 10 e.toNat := Nat.pow_pos (by decide)
        have habove : den * 1 ≤ den * Nat.pow 10 e.toNat := Nat.mul_le_mul_left den hpower
        omega
      · exact hstep
      · omega
      · exact hstep

/-- A search without a hit ends far behind the first digit. -/
theorem search_of_zero {i : Interval} (haway : 0 < i.low) {lead : Int} {fuel count : Nat}
    (hzero : (search i lead fuel count).1 = 0) :
    i.value / i.denominator = 0 ∧ (search i lead fuel count).2 = lead - (count + fuel : Nat) := by
  induction fuel generalizing count with
  | zero => exact ⟨hzero, rfl⟩
  | succ fuel ih =>
      rw [search] at hzero ⊢
      cases hhit : onGrid? i (lead + 1 - count) with
      | some n =>
          rw [hhit] at hzero
          exact absurd hzero (onGrid?_ne_zero haway hhit)
      | none =>
          simp only [hhit] at hzero ⊢
          have hlater := ih hzero
          refine ⟨hlater.1, hlater.2.trans ?_⟩
          omega

theorem interval_denominator_pos (x : Binary64) : 0 < (interval x).denominator := by
  simp only [interval]
  split_ifs
  · decide
  · exact Nat.mul_pos (by decide) (Nat.pow_pos (by decide))

/-- Half a unit below a double that is not zero is above zero. -/
theorem interval_low_pos {x : Binary64} (hpositive : x.mantissa ≠ 0) : 0 < (interval x).low := by
  -- The value is at least four quarters of its unit, and the end lies at most two below it.
  have hquarters : ∀ {q below : Nat}, 0 < q → below ≤ 2 →
      0 < 4 * q * x.mantissa - below * (4 * q / 4) := by
    intro q below hsomeUnit hfew
    have hleast : 4 * q * 1 ≤ 4 * q * x.mantissa :=
      Nat.mul_le_mul_left _ (Nat.one_le_iff_ne_zero.mpr hpositive)
    have hmost : below * q ≤ 2 * q := Nat.mul_le_mul_right q hfew
    rw [Nat.mul_div_cancel_left q (by decide)]
    omega
  simp only [interval]
  split_ifs
  all_goals
    first
    | exact hquarters (Nat.pow_pos (by decide)) (by decide)
    | exact hquarters Nat.one_pos (by decide)

/-- The digits of a double are those of zero only if they were cut off behind the point. -/
theorem digits_of_zero {x : Binary64} (hpositive : x.mantissa ≠ 0) (hzero : (digits x).1 = 0) :
    (digits x).2 < 0 := by
  rw [digits] at hzero ⊢
  have hkept := dropZeros_of_zero hzero
  rw [hkept] at hzero ⊢
  obtain ⟨hbelow, hlast⟩ := search_of_zero (interval_low_pos hpositive) hzero
  have hvalueBelow := (Nat.div_eq_zero_iff_lt (interval_denominator_pos x)).mp hbelow
  have henough : (309 : Int) < (640 : Nat) := by decide
  have hlead := leadingExponent_lt_zero hvalueBelow henough
  omega

end Shortest

section Numerals

/-- A minus or nothing before a numeral without a sign. -/
theorem isNumeral_signed {text : List Char} (hunsigned : IsUnsigned text) (negative : Bool) :
    IsNumeral ((if negative then ['-'] else []) ++ text) := by
  cases negative with
  | false => exact .unsigned hunsigned
  | true => exact .negative hunsigned

theorem Binary64.isNumeral_text (x : Binary64) : IsNumeral x.text := by
  by_cases hzero : x.mantissa = 0
  · rw [Binary64.text, if_pos hzero]
    exact isNumeral_signed (.intro isWhole_zero (.inr ⟨_, isWhole_zero.1, rfl⟩) (.inl rfl)) _
  · rcases hfound : Shortest.digits x with ⟨n, unit⟩
    have hbehind := Shortest.digits_of_zero hzero
    rw [hfound] at hbehind
    rw [Binary64.text, if_neg hzero, hfound]
    refine isNumeral_signed ?_ x.negative
    split_ifs
    · apply isUnsigned_withPoint
      rintro rfl
      have hunit : unit < 0 := hbehind rfl
      rw [Nat.toDigits_zero, List.length_singleton]
      omega
    · exact isUnsigned_withExponent (isDigits_toDigits n) _

theorem isUnsigned_toDigits (n : Nat) : IsUnsigned (Nat.toDigits 10 n) := by
  have hwritten := IsUnsigned.intro (isWhole_toDigits n) (.inl rfl) (.inl rfl)
  rwa [List.append_nil, List.append_nil] at hwritten

/-- Every number is written as a numeral. -/
theorem Number.isNumeral_text (n : Number) : IsNumeral n.text := by
  cases n with
  | int n =>
      rw [Number.text, Int.toString_eq_repr]
      cases n with
      | ofNat n =>
          rw [Int.repr, Nat.toList_repr]
          exact .unsigned (isUnsigned_toDigits n)
      | negSucc n =>
          rw [Int.repr, String.toList_append, Nat.toList_repr]
          exact .negative (isUnsigned_toDigits (n + 1))
  | float x => exact x.isNumeral_text

end Numerals

end ManifestForm
