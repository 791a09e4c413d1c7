/-! # Finite binary64 numbers and decimal notation

A finite double is its sign and the integers of `mantissa * 2 ^ exponent`, brought to the one
form that the 64-bit layout allows. Every operation is an exact quotient of natural numbers
followed by one rounding to the nearest double, a half going to the even mantissa.

Integers are read with a sign and digits of some base, and doubles in decimal notation with an
optional point and exponent. Digits are those of ASCII, and nothing may stand before or behind the
number.
-/

namespace ManifestForm

/-- A finite double. `Binary64.nearest` builds it with a mantissa below `2 ^ 53` and, above the
least exponent `-1074`, at least `2 ^ 52`. -/
structure Binary64 where
  negative : Bool
  mantissa : Nat
  exponent : Int
  deriving DecidableEq, Repr

namespace Binary64

def zero (negative : Bool) : Binary64 := ⟨negative, 0, -1074⟩

/-- The numerator and denominator of `num / den` in units of `2 ^ e`. -/
def inUnits (num den : Nat) (e : Int) : Nat × Nat :=
  if 0 ≤ e then (num, den * Nat.pow 2 e.toNat) else (num * Nat.pow 2 (-e).toNat, den)

/-- The quotient to the nearest integer, a half going to the even one. -/
def roundHalfEven (num den : Nat) : Nat :=
  let q := num / den
  let r := 2 * (num % den)
  if r < den then q else if den < r then q + 1 else q + q % 2

/-- The unit `2 ^ e` in which the quotient has 53 bits, or the least one. -/
def unitOf (num den : Nat) : Int :=
  let e : Int := (num.log2 : Int) - den.log2 - 53
  let (n, d) := inUnits num den e
  max (if n / d < Nat.pow 2 53 then e else e + 1) (-1074)

/-- The double nearest to `num / den`, or `none` when that is beyond the greatest one. -/
def nearest (negative : Bool) (num den : Nat) : Option Binary64 :=
  if num = 0 then some (zero negative)
  else
    let e := unitOf num den
    let (n, d) := inUnits num den e
    let m := roundHalfEven n d
    let (m, e) := if m < Nat.pow 2 53 then (m, e) else (m / 2, e + 1)
    if e ≤ 971 then some ⟨negative, m, e⟩ else none

/-- The magnitude as a quotient of natural numbers. -/
def magnitude (x : Binary64) : Nat × Nat :=
  if 0 ≤ x.exponent then (x.mantissa * Nat.pow 2 x.exponent.toNat, 1)
  else (x.mantissa, Nat.pow 2 (-x.exponent).toNat)

/-- The double nearest to an integer, or `none` when it is too large. -/
def ofInt? (n : Int) : Option Binary64 := nearest (n < 0) n.natAbs 1

/-- The double nearest to `digits * 10 ^ exponent`. Beyond the exponents tested first, the number
is certainly too large, or certainly rounds to zero. -/
def ofDecimal? (negative : Bool) (digits : Nat) (exponent : Int) : Option Binary64 :=
  let size : Int := exponent + digits.log2 / 3
  if digits = 0 then some (zero negative)
  else if 400 < exponent then none
  else if size < -400 then some (zero negative)
  else if 0 ≤ exponent then nearest negative (digits * Nat.pow 10 exponent.toNat) 1
  else nearest negative digits (Nat.pow 10 (-exponent).toNat)

/-- The product, rounded once; the sign is that of `x`. -/
def scaleUp? (x y : Binary64) : Option Binary64 :=
  nearest x.negative (x.magnitude.1 * y.magnitude.1) (x.magnitude.2 * y.magnitude.2)

/-- The quotient, rounded once; the sign is that of `x`. -/
def scaleDown? (x y : Binary64) : Option Binary64 :=
  nearest x.negative (x.magnitude.1 * y.magnitude.2) (x.magnitude.2 * y.magnitude.1)

end Binary64

namespace Decimal

/-- The value of a digit of a base up to 16. -/
def digit? (base : Nat) (c : Char) : Option Nat :=
  let n :=
    if '0' ≤ c ∧ c ≤ '9' then c.toNat - 48
    else if 'a' ≤ c ∧ c ≤ 'f' then c.toNat - 87
    else if 'A' ≤ c ∧ c ≤ 'F' then c.toNat - 55
    else base
  if n < base then some n else none

/-- A number of one digit or more. -/
def natural? (base : Nat) (cs : List Char) : Option Nat :=
  if cs.isEmpty then none
  else cs.foldl (fun n c => do return (← n) * base + (← digit? base c)) (some 0)

/-- A number that may have a plus before it. -/
def unsigned? (base : Nat) : List Char → Option Nat
  | '+' :: cs => natural? base cs
  | cs => natural? base cs

/-- A number behind at most one sign. -/
def integer? (base : Nat) : List Char → Option Int
  | '-' :: cs => (natural? base cs).map fun n => -(n : Int)
  | '+' :: cs => (natural? base cs).map Int.ofNat
  | cs => (natural? base cs).map Int.ofNat

def fits64 (n : Int) : Bool := -(Nat.pow 2 63 : Nat) ≤ n && n < (Nat.pow 2 63 : Nat)

/-- An integer of 64 bits with a sign. -/
def int64? (base : Nat) (cs : List Char) : Option Int := (integer? base cs).filter fits64

def isDigit (c : Char) : Bool := '0' ≤ c && c ≤ '9'

/-- The digits before and behind the point, and the exponent. At least one digit is needed. -/
def parts? (cs : List Char) : Option (List Char × List Char × Int) :=
  let whole := cs.takeWhile isDigit
  let rest := cs.dropWhile isDigit
  let (fraction, rest) :=
    match rest with
    | '.' :: r => (r.takeWhile isDigit, r.dropWhile isDigit)
    | _ => ([], rest)
  if whole.isEmpty && fraction.isEmpty then none
  else
    match rest with
    | [] => some (whole, fraction, 0)
    | 'e' :: r | 'E' :: r => (integer? 10 r).map fun e => (whole, fraction, e)
    | _ => none

/-- A finite double. Numbers too large for one are refused. -/
def double? (cs : List Char) : Option Binary64 :=
  let (negative, cs) :=
    match cs with
    | '-' :: r => (true, r)
    | '+' :: r => (false, r)
    | _ => (false, cs)
  (parts? cs).bind fun (whole, fraction, e) =>
    let digits := ((natural? 10 (whole ++ fraction)).getD 0)
    Binary64.ofDecimal? negative digits (e - fraction.length)

end Decimal

end ManifestForm
