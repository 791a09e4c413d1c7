import ManifestForm.Number.Binary64

/-! # The shortest decimal text of a double

Of the decimals that read back to a double, those with the fewest digits are taken, and of these
the nearest. `Shortest.digits` finds it by testing, for one digit, two digits and so on, the two
neighbours of the value on the grid of that many digits.
-/

namespace ManifestForm.Shortest

/-- Numerators over one denominator: the value and the ends of the interval that rounds to it. -/
structure Interval where
  value : Nat
  low : Nat
  high : Nat
  denominator : Nat
  /-- The ends themselves round to the value. -/
  closed : Bool

/-- The ends lie half a unit away, but a quarter below a power of two. -/
def interval (x : Binary64) : Interval :=
  let scale : Nat := if 0 ≤ x.exponent then 4 * Nat.pow 2 x.exponent.toNat else 4
  let den : Nat := if 0 ≤ x.exponent then 4 else 4 * Nat.pow 2 (-x.exponent).toNat
  let below := if x.mantissa = Nat.pow 2 52 ∧ -1074 < x.exponent then 1 else 2
  let quarter := scale / 4
  ⟨scale * x.mantissa, scale * x.mantissa - below * quarter, scale * x.mantissa + 2 * quarter, den,
    x.mantissa % 2 = 0⟩

/-- Whether `num / den` lies in the interval. -/
def Interval.contains (i : Interval) (num den : Nat) : Bool :=
  if i.closed then i.low * den ≤ num * i.denominator && num * i.denominator ≤ i.high * den
  else i.low * den < num * i.denominator && num * i.denominator < i.high * den

/-- The decimal exponent of the first digit of `num / den`, counted down from `e`. -/
def leadingExponent (num den : Nat) : Nat → Int → Int
  | 0, e => e
  | fuel + 1, e =>
    let fits :=
      if 0 ≤ e then den * Nat.pow 10 e.toNat ≤ num else den ≤ num * Nat.pow 10 (-e).toNat
    if fits then e else leadingExponent num den fuel (e - 1)

/-- A neighbour of the value on the grid of `10 ^ unit` that reads back to it, if there is one. -/
def onGrid? (i : Interval) (unit : Int) : Option Nat :=
  let scale : Nat × Nat :=
    if 0 ≤ unit then (Nat.pow 10 unit.toNat, 1) else (1, Nat.pow 10 (-unit).toNat)
  let num := i.value * scale.2
  let den := i.denominator * scale.1
  let lower := num / den
  let fits (n : Nat) : Bool := i.contains (n * scale.1) scale.2
  let nearer := Binary64.roundHalfEven num den
  if fits lower && fits (lower + 1) then some nearer
  else if fits lower then some lower
  else if fits (lower + 1) then some (lower + 1)
  else none

/-- The first grid with a hit, from `count` digits on. -/
def search (i : Interval) (lead : Int) : Nat → Nat → Nat × Int
  | 0, count => (i.value / i.denominator, lead - count)
  | fuel + 1, count =>
    let unit := lead + 1 - count
    match onGrid? i unit with
    | some n => (n, unit)
    | none => search i lead fuel (count + 1)

/-- Moves the zeros at the end of the digits into the exponent. -/
def dropZeros : Nat → Nat × Int → Nat × Int
  | 0, d => d
  | fuel + 1, (n, e) => if n ≠ 0 ∧ n % 10 = 0 then dropZeros fuel (n / 10, e + 1) else (n, e)

/-- The digits and the decimal exponent of the last one. -/
def digits (x : Binary64) : Nat × Int :=
  let i := interval x
  dropZeros 20 (search i (leadingExponent i.value i.denominator 640 309) 17 1)

end ManifestForm.Shortest

namespace ManifestForm.Binary64

/-- How decimal digits are laid out. -/
structure Layout where
  /-- The least and greatest decimal exponent written without an exponent. -/
  plainFrom : Int
  plainTo : Int

/-- Numbers from `0.00001` up to below `10 ^ 16` are written plainly. -/
def layout : Layout := ⟨-5, 15⟩

/-- Digits with a point after the first `whole` of them, and at least one digit on each side. -/
def withPoint (ds : List Char) (whole : Int) : List Char :=
  if whole ≤ 0 then '0' :: '.' :: (List.replicate (-whole).toNat '0' ++ ds)
  else
    let before := ds.take whole.toNat
    let after := ds.drop whole.toNat
    before ++ List.replicate (whole.toNat - ds.length) '0' ++
      '.' :: (if after.isEmpty then ['0'] else after)

/-- One digit, the others after a point, and a signed exponent. -/
def withExponent (ds : List Char) (e : Int) : List Char :=
  let fraction := ds.drop 1
  ds.take 1 ++ (if fraction.isEmpty then [] else '.' :: fraction) ++
    'e' :: (if e < 0 then '-' else '+') :: Nat.toDigits 10 e.natAbs

/-- The shortest text that reads back. Zero keeps its sign. -/
def text (x : Binary64) : List Char :=
  let sign := if x.negative then ['-'] else []
  if x.mantissa = 0 then sign ++ ['0', '.', '0']
  else
    let (n, unit) := Shortest.digits x
    let ds := Nat.toDigits 10 n
    let e := unit + ds.length - 1
    sign ++
      if layout.plainFrom ≤ e ∧ e ≤ layout.plainTo then withPoint ds (e + 1) else withExponent ds e

end ManifestForm.Binary64
