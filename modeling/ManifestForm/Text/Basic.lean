/-! # Characters, pieces, lines and octets

The blank characters are those of Unicode's White_Space property. A text is cut into the pieces
between separators, and a stream of octets into lines.

`Utf8.scalars` reads octets one at a time and reports, in order, the characters they encode and one
`none` for each longest run of octets that starts a character but does not finish it. Strict and
lenient decoding differ only in what they make of a `none`.
-/

namespace ManifestForm.Text

def isBlank (c : Char) : Bool :=
  let n := c.toNat
  (9 ≤ n && n ≤ 13) || n = 0x20 || n = 0x85 || n = 0xA0 || n = 0x1680 ||
    (0x2000 ≤ n && n ≤ 0x200A) || n = 0x2028 || n = 0x2029 || n = 0x202F || n = 0x205F || n = 0x3000

def trimStart (s : List Char) : List Char := s.dropWhile isBlank

def trimEnd (s : List Char) : List Char := (s.reverse.dropWhile isBlank).reverse

def trim (s : List Char) : List Char := trimEnd (trimStart s)

/-- The pieces of a text between separators, empty pieces included. -/
def splitOn {α : Type} (isSeparator : α → Bool) : List α → List (List α)
  | [] => [[]]
  | c :: cs =>
    match splitOn isSeparator cs with
    | [] => [[c]]
    | piece :: pieces =>
      if isSeparator c then [] :: piece :: pieces else (c :: piece) :: pieces

def lineFeed : UInt8 := 10

def carriageReturn : UInt8 := 13

/-- A line that a line feed ended, without the carriage return before it. -/
def dropReturn (line : List UInt8) : List UInt8 :=
  if line.getLast? = some carriageReturn then line.dropLast else line

/-- Pieces between line feeds as lines. The last one has no end, and is none if it is empty. -/
def ended : List (List UInt8) → List (List UInt8)
  | [] => []
  | [last] => if last.isEmpty then [] else [last]
  | line :: rest => dropReturn line :: ended rest

/-- The lines of a stream, without their ends. -/
def lines (octets : List UInt8) : List (List UInt8) := ended (splitOn (· = lineFeed) octets)

end ManifestForm.Text

namespace ManifestForm.Utf8

/-- A character part way through: the bits so far, the octets still owed, and the bounds of the
next one. -/
structure Pending where
  bits : Nat
  owed : Nat
  low : Nat
  high : Nat

/-- What a first octet starts. -/
inductive Lead where
  | complete (c : Char)
  | pending (p : Pending)
  | invalid

def Lead.ofOctet (b : UInt8) : Lead :=
  let n := b.toNat
  if n < 0x80 then .complete (Char.ofNat n)
  else if n < 0xC2 then .invalid
  else if n < 0xE0 then .pending ⟨n - 0xC0, 1, 0x80, 0xBF⟩
  else if n < 0xF0 then
    .pending ⟨n - 0xE0, 2, if n = 0xE0 then 0xA0 else 0x80, if n = 0xED then 0x9F else 0xBF⟩
  else if n < 0xF5 then
    .pending ⟨n - 0xF0, 3, if n = 0xF0 then 0x90 else 0x80, if n = 0xF4 then 0x8F else 0xBF⟩
  else .invalid

/-- The characters of the octets, in order, where `none` stands for a run that encodes nothing. -/
def scalarsFrom : Option Pending → List UInt8 → List (Option Char)
  | none, [] => []
  | some _, [] => [none]
  | none, b :: r =>
    match Lead.ofOctet b with
    | .complete c => some c :: scalarsFrom none r
    | .pending p => scalarsFrom (some p) r
    | .invalid => none :: scalarsFrom none r
  | some p, b :: r =>
    let n := b.toNat
    if p.low ≤ n ∧ n ≤ p.high then
      let bits := p.bits * 64 + (n - 0x80)
      if p.owed ≤ 1 then some (Char.ofNat bits) :: scalarsFrom none r
      else scalarsFrom (some ⟨bits, p.owed - 1, 0x80, 0xBF⟩) r
    else
      match Lead.ofOctet b with
      | .complete c => none :: some c :: scalarsFrom none r
      | .pending q => none :: scalarsFrom (some q) r
      | .invalid => none :: none :: scalarsFrom none r

def scalars (octets : List UInt8) : List (Option Char) := scalarsFrom none octets

/-- The text, or `none` when some octets encode nothing. -/
def decode? (octets : List UInt8) : Option (List Char) := (scalars octets).mapM id

/-- The text with U+FFFD in the place of octets that encode nothing. -/
def decodeLenient (octets : List UInt8) : List Char := (scalars octets).map (·.getD '\uFFFD')

def encodeChar (c : Char) : List UInt8 :=
  let n := c.toNat
  if n < 0x80 then [n.toUInt8]
  else if n < 0x800 then [(0xC0 + n / 64).toUInt8, (0x80 + n % 64).toUInt8]
  else if n < 0x10000 then
    [(0xE0 + n / 4096).toUInt8, (0x80 + n / 64 % 64).toUInt8, (0x80 + n % 64).toUInt8]
  else
    [(0xF0 + n / 262144).toUInt8, (0x80 + n / 4096 % 64).toUInt8, (0x80 + n / 64 % 64).toUInt8,
      (0x80 + n % 64).toUInt8]

def encode (s : List Char) : List UInt8 := s.flatMap encodeChar

end ManifestForm.Utf8
