/-! # Base64 and PEM sections

Base64 has the standard alphabet with required padding. Decoding reports the first fault it meets:
all groups of four but the last one are read before the last group, and within the last group
symbols are judged before the padding and the padding before unused bits.

PEM is a text of labelled sections between BEGIN and END lines. Text outside sections is skipped,
and so are sections with labels other than those of certificates, keys, requests and revocation
lists. The body of a section is Base64 with blanks anywhere; nothing is asked of the octets it
encodes.
-/

namespace ManifestForm.Base64

inductive Fault where
  | symbol (octet : UInt8) (offset : Nat)
  | lastSymbol (octet : UInt8) (offset : Nat)
  | length (count : Nat)
  | padding
  deriving DecidableEq, Repr

def Fault.message : Fault → String
  | .symbol octet offset => s!"Invalid symbol {octet.toNat}, offset {offset}."
  | .lastSymbol octet offset => s!"Invalid last symbol {octet.toNat}, offset {offset}."
  | .length count => s!"Invalid input length: {count}"
  | .padding => "Invalid padding"

def pad : UInt8 := 61

/-- The six bits that a symbol stands for. -/
def value? (b : UInt8) : Option Nat :=
  let n := b.toNat
  if 65 ≤ n ∧ n ≤ 90 then some (n - 65)
  else if 97 ≤ n ∧ n ≤ 122 then some (n - 71)
  else if 48 ≤ n ∧ n ≤ 57 then some (n + 4)
  else if n = 43 then some 62
  else if n = 47 then some 63
  else none

def symbol (n : Nat) : Char :=
  if n < 26 then Char.ofNat (n + 65)
  else if n < 52 then Char.ofNat (n + 71)
  else if n < 62 then Char.ofNat (n - 4)
  else if n = 62 then '+'
  else '/'

def encode : List UInt8 → List Char
  | [] => []
  | [a] =>
    let n := a.toNat * 65536
    [symbol (n / 262144), symbol (n / 4096 % 64), '=', '=']
  | [a, b] =>
    let n := a.toNat * 65536 + b.toNat * 256
    [symbol (n / 262144), symbol (n / 4096 % 64), symbol (n / 64 % 64), '=']
  | a :: b :: c :: r =>
    let n := a.toNat * 65536 + b.toNat * 256 + c.toNat
    symbol (n / 262144) :: symbol (n / 4096 % 64) :: symbol (n / 64 % 64) :: symbol (n % 64) ::
      encode r

/-- The octets that a list of six-bit values fills; bits left over are dropped. -/
def pack : List Nat → List UInt8
  | a :: b :: c :: d :: r =>
    let n := ((a * 64 + b) * 64 + c) * 64 + d
    (n / 65536).toUInt8 :: (n / 256 % 256).toUInt8 :: (n % 256).toUInt8 :: pack r
  | [a, b, c] =>
    let n := (a * 64 + b) * 64 + c
    [(n / 1024).toUInt8, (n / 4 % 256).toUInt8]
  | [a, b] => [((a * 64 + b) / 16).toUInt8]
  | _ => []

/-- The values of symbols that stand at `offset`, none of which may be padding. -/
def values (offset : Nat) : List UInt8 → Except Fault (List Nat)
  | [] => .ok []
  | b :: r =>
    match value? b with
    | none => .error (.symbol b offset)
    | some v => (values (offset + 1) r).map (v :: ·)

/-- The values of the last group, `at` places into it, with the place of its first padding. -/
def lastValues (offset : Nat) (place : Nat) (padded : Option Nat) :
    List UInt8 → Except Fault (List Nat × Nat)
  | [] => .ok ([], 0)
  | b :: r =>
    if b = pad then
      if place < 2 then .error (.symbol b (offset + place))
      else
        (lastValues offset (place + 1) (padded.or (some place)) r).map fun (vs, n) => (vs, n + 1)
    else
      match padded with
      | some first => .error (.symbol pad (offset + first))
      | none =>
        match value? b with
        | none => .error (.symbol b (offset + place))
        | some v => (lastValues offset (place + 1) none r).map fun (vs, n) => (v :: vs, n)

/-- Bits of the last value that fill no octet. -/
def unusedBits (vs : List Nat) : Nat :=
  match vs with
  | [_, b] => b % 16
  | [_, _, c] => c % 4
  | _ => 0

/-- Where the last group starts: a full one counts as the last. -/
def lastGroup (length : Nat) : Nat := length - (if length % 4 = 0 then 4 else length % 4)

def decode (octets : List UInt8) : Except Fault (List UInt8) :=
  let start := lastGroup octets.length
  let lastOctet := octets.getLast?.getD pad
  if octets.isEmpty then .ok []
  else if octets.length % 4 = 1 ∧ lastOctet ≠ pad ∧ (value? lastOctet).isNone then
    .error (.symbol lastOctet (octets.length - 1))
  else
    match values 0 (octets.take start) with
    | .error e => .error e
    | .ok vs =>
      match lastValues start 0 none (octets.drop start) with
      | .error e => .error e
      | .ok (ws, pads) =>
        if ws.length < 2 then .error (.length (start + ws.length))
        else if (ws.length + pads) % 4 ≠ 0 then .error .padding
        else if unusedBits ws ≠ 0 then
          let place := start + ws.length - 1
          .error (.lastSymbol ((octets[place]?).getD pad) place)
        else .ok (pack (vs ++ ws))

end ManifestForm.Base64

namespace ManifestForm.Pem

inductive Kind where
  | certificate
  | privateKey
  | other
  deriving DecidableEq, Repr

/-- What a label announces; `none` for a label that is skipped with its body. -/
def kindOf? (label : List UInt8) : Option Kind :=
  let is (text : String) : Bool := label = text.toUTF8.toList
  if is "CERTIFICATE" then some .certificate
  else if is "PRIVATE KEY" || is "RSA PRIVATE KEY" || is "EC PRIVATE KEY" then some .privateKey
  else if is "PUBLIC KEY" || is "X509 CRL" || is "CERTIFICATE REQUEST" || is "ECHCONFIG" then
    some .other
  else none

/-- The lines of the text, without their ends. -/
def lines (octets : List UInt8) : List (List UInt8) :=
  octets.splitBy (fun a _ => a ≠ 10 && a ≠ 13) |>.map (·.filter fun b => b ≠ 10 && b ≠ 13)

def isPadBlank (b : UInt8) : Bool := b = 32 || (9 ≤ b && b ≤ 13)

def dash : UInt8 := 45

def beginMark : List UInt8 := "-----BEGIN ".toUTF8.toList

def endMark (label : List UInt8) : List UInt8 :=
  "-----END ".toUTF8.toList ++ label ++ List.replicate 5 dash

/-- The label of a BEGIN line that ends in exactly five dashes. -/
def labelOf? (line : List UInt8) : Option (List UInt8) :=
  let trimmed := (line.reverse.dropWhile (· = 32)).reverse
  let dashes := (trimmed.reverse.takeWhile (· = dash)).length
  if dashes = 5 then
    some ((trimmed.drop beginMark.length).take (trimmed.length - beginMark.length - 5))
  else none

/-- Whether a body is Base64: padding stands only at the end of the last group, or is left out. -/
def isBase64 (body : List UInt8) : Bool :=
  let symbols := body.filter fun b => !isPadBlank b
  let core := symbols.takeWhile (· ≠ Base64.pad)
  let pads := symbols.drop core.length
  core.all (fun b => (Base64.value? b).isSome) && pads.all (· = Base64.pad) &&
    ((core.length % 4 = 0 && pads.length = 0) ||
      (core.length % 4 = 3 && pads.length ≤ 1) ||
      (core.length % 4 = 2 && (pads.length = 0 || pads.length = 2)))

/-- A section being read: its label and the body so far. -/
structure Open where
  label : List UInt8
  body : List UInt8

/-- The sections in order, up to the first fault, which is an `error`. -/
def sectionsFrom : Option Open → List (List UInt8) → List (Except Unit Kind)
  | none, [] => []
  | some _, [] => [.error ()]
  | state, line :: rest =>
    if beginMark.isPrefixOf line then
      match labelOf? line with
      | none => [.error ()]
      | some label => sectionsFrom (some ⟨label, (state.map (·.body)).getD []⟩) rest
    else
      match state with
      | none => sectionsFrom none rest
      | some s =>
        if (endMark s.label).isPrefixOf line then
          match kindOf? s.label with
          | none => sectionsFrom none rest
          | some kind =>
            if isBase64 s.body then .ok kind :: sectionsFrom none rest else [.error ()]
        else sectionsFrom (some ⟨s.label, s.body ++ line⟩) rest

def sections (octets : List UInt8) : List (Except Unit Kind) := sectionsFrom none (lines octets)

end ManifestForm.Pem
