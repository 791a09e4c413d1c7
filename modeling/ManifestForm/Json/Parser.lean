import ManifestForm.Json.Basic

/-! # Reading JSON text

The reader works on a list of characters and returns what is left. Brackets nest at most 127 deep.
A number with more digits than 64 bits hold is read from its first digits, and its power of ten is
applied by one rounded product or quotient.

A value that nobody asks for is passed over. It need only be well formed in outline: it may nest
without limit, its numbers may be out of range and its surrogates need not pair.
-/

namespace ManifestForm.Json.Parser

/-- What was read, and the characters after it. -/
abbrev Result (α : Type) := Option (α × List Char)

def isBlank (c : Char) : Bool := c = ' ' || c = '\n' || c = '\t' || c = '\r'

def skipBlank (s : List Char) : List Char := s.dropWhile isBlank

def hexValue? (c : Char) : Option Nat :=
  if '0' ≤ c ∧ c ≤ '9' then some (c.toNat - 48)
  else if 'a' ≤ c ∧ c ≤ 'f' then some (c.toNat - 87)
  else if 'A' ≤ c ∧ c ≤ 'F' then some (c.toNat - 55)
  else none

def hex4? (a b c d : Char) : Option Nat := do
  return (((← hexValue? a) * 16 + (← hexValue? b)) * 16 + (← hexValue? c)) * 16 + (← hexValue? d)

def isHighSurrogate (n : Nat) : Bool := 0xD800 ≤ n && n ≤ 0xDBFF

def isLowSurrogate (n : Nat) : Bool := 0xDC00 ≤ n && n ≤ 0xDFFF

/-- The character that a backslash and this one stand for. -/
def simpleEscape? : Char → Option Char
  | '"' => some '"'
  | '\\' => some '\\'
  | '/' => some '/'
  | 'b' => some '\x08'
  | 'f' => some '\x0c'
  | 'n' => some '\n'
  | 'r' => some '\r'
  | 't' => some '\t'
  | _ => none

/-- The rest of a string behind its opening quote. A surrogate counts only as half of a pair. -/
def stringTail : List Char → Result (List Char)
  | [] => none
  | '"' :: r => some ([], r)
  | '\\' :: 'u' :: a :: b :: c :: d :: r =>
    match hex4? a b c d with
    | none => none
    | some n =>
      if isLowSurrogate n then none
      else if isHighSurrogate n then
        match r with
        | '\\' :: 'u' :: e :: f :: g :: h :: r' =>
          match hex4? e f g h with
          | none => none
          | some m =>
            if isLowSurrogate m then
              (stringTail r').map fun (cs, rest) =>
                (Char.ofNat (0x10000 + (n - 0xD800) * 0x400 + (m - 0xDC00)) :: cs, rest)
            else none
        | _ => none
      else (stringTail r).map fun (cs, rest) => (Char.ofNat n :: cs, rest)
  | '\\' :: c :: r =>
    match simpleEscape? c with
    | none => none
    | some e => (stringTail r).map fun (cs, rest) => (e :: cs, rest)
  | c :: r =>
    if c.toNat < 32 || c = '\\' then none
    else (stringTail r).map fun (cs, rest) => (c :: cs, rest)

/-- The parts of a number as written. -/
structure Numeral where
  negative : Bool
  whole : List Char
  fraction : List Char
  exponent : Option Int

/-- The greatest significand. -/
def maxSignificand : Nat := Nat.pow 2 64 - 1

def digitValue (c : Char) : Nat := c.toNat - 48

/-- Adds a digit before the point; once one does not fit, this and all later ones only count as
powers of ten. -/
def addWhole (s : Nat × Nat) (c : Char) : Nat × Nat :=
  let next := s.1 * 10 + digitValue c
  if s.2 = 0 ∧ next ≤ maxSignificand then (next, 0) else (s.1, s.2 + 1)

/-- Adds digits behind the point until one does not fit; `places` counts those added. -/
def addFraction (significand places : Nat) : List Char → Nat × Nat
  | [] => (significand, places)
  | c :: cs =>
    let next := significand * 10 + digitValue c
    if next ≤ maxSignificand then addFraction next (places + 1) cs else (significand, places)

/-- `x * 10 ^ exponent`, in steps of at most 308 powers of ten. -/
def scale? : Nat → Binary64 → Int → Option Binary64
  | 0, x, _ => some (.zero x.negative)
  | fuel + 1, x, exponent =>
    if exponent.natAbs ≤ 308 then
      match Binary64.ofDecimal? false 1 exponent.natAbs with
      | none => none
      | some power => if 0 ≤ exponent then x.scaleUp? power else x.scaleDown? power
    else if x.mantissa = 0 then some x
    else if 0 ≤ exponent then none
    else
      match (Binary64.ofDecimal? false 1 308).bind x.scaleDown? with
      | none => none
      | some y => scale? fuel y (exponent + 308)

/-- The value of a numeral; `none` when it is too large for a double. -/
def Numeral.value? (n : Numeral) : Option Number :=
  let (significand, dropped) := n.whole.foldl addWhole (0, 0)
  let float (significand : Nat) (exponent : Int) : Option Number :=
    ((Binary64.nearest n.negative significand 1).bind (scale? 4 · exponent)).map .float
  match n.fraction, n.exponent with
  | [], none =>
    if dropped ≠ 0 then float significand dropped
    else if ¬ n.negative then some (.int significand)
    else if significand = 0 ∨ Nat.pow 2 63 < significand then float significand 0
    else some (.int (-significand))
  | fraction, exponent =>
    let (significand, places) := addFraction significand 0 fraction
    float significand ((dropped : Int) - places + exponent.getD 0)

def isDigit (c : Char) : Bool := '0' ≤ c && c ≤ '9'

def natOf (ds : List Char) : Nat := ds.foldl (fun n c => n * 10 + digitValue c) 0

/-- An exponent behind its letter: a sign, then at least one digit. -/
def exponentTail (s : List Char) : Result Int :=
  let (negative, s) :=
    match s with
    | '-' :: r => (true, r)
    | '+' :: r => (false, r)
    | _ => (false, s)
  let ds := s.takeWhile isDigit
  if ds.isEmpty then none
  else some (if negative then -(natOf ds : Int) else natOf ds, s.dropWhile isDigit)

/-- The digits behind a point, if there is one. -/
def fraction (s : List Char) : Result (List Char) :=
  match s with
  | '.' :: r =>
    let ds := r.takeWhile isDigit
    if ds.isEmpty then none else some (ds, r.dropWhile isDigit)
  | _ => some ([], s)

/-- The exponent, if there is one. -/
def exponent (s : List Char) : Result (Option Int) :=
  match s with
  | 'e' :: r | 'E' :: r => (exponentTail r).map fun (e, rest) => (some e, rest)
  | _ => some (none, s)

/-- A number behind its sign: no zero before other digits, and digits on both sides of a point. -/
def unsigned (negative : Bool) (s : List Char) : Result Numeral :=
  let whole := s.takeWhile isDigit
  if whole.isEmpty || (whole.head? = some '0' && whole.length ≠ 1) then none
  else
    match fraction (s.dropWhile isDigit) with
    | none => none
    | some (fraction, s) =>
      (exponent s).map fun (exponent, rest) => (⟨negative, whole, fraction, exponent⟩, rest)

def numeral (s : List Char) : Result Numeral :=
  match s with
  | '-' :: r => unsigned true r
  | _ => unsigned false s

def word (text : List Char) (value : α) (s : List Char) : Result α :=
  if text.isPrefixOf s then some (value, s.drop text.length) else none

/-- A value that opens no bracket. -/
def scalar (s : List Char) : Result Json :=
  match s with
  | '"' :: r => (stringTail r).map fun (cs, rest) => (.str (String.ofList cs), rest)
  | 'n' :: _ => word ['n', 'u', 'l', 'l'] .null s
  | 't' :: _ => word ['t', 'r', 'u', 'e'] (.bool true) s
  | 'f' :: _ => word ['f', 'a', 'l', 's', 'e'] (.bool false) s
  | _ => (numeral s).bind fun (n, rest) => n.value?.map fun v => (.num v, rest)

/-- A key and the colon behind it. -/
def key (s : List Char) : Result String :=
  match skipBlank s with
  | '"' :: r =>
    match stringTail r with
    | none => none
    | some (cs, r) =>
      match skipBlank r with
      | ':' :: r => some (String.ofList cs, r)
      | _ => none
  | _ => none

mutual

/-- A value, with `depth` levels of brackets left. -/
def value : Nat → Nat → List Char → Result Json
  | 0, _, _ => none
  | fuel + 1, depth, s =>
    match skipBlank s, depth with
    | '[' :: _, 0 => none
    | '{' :: _, 0 => none
    | '[' :: r, depth + 1 =>
      match skipBlank r with
      | ']' :: r => some (.arr [], r)
      | _ => (items fuel depth r).map fun (xs, rest) => (.arr xs, rest)
    | '{' :: r, depth + 1 =>
      match skipBlank r with
      | '}' :: r => some (.obj [], r)
      | _ => (entries fuel depth r).map fun (kvs, rest) => (.obj (Object.ofList kvs), rest)
    | s, _ => scalar s

/-- One item or more, and the closing bracket. -/
def items : Nat → Nat → List Char → Result (List Json)
  | 0, _, _ => none
  | fuel + 1, depth, s =>
    match value fuel depth s with
    | none => none
    | some (x, r) =>
      match skipBlank r with
      | ']' :: r => some ([x], r)
      | ',' :: r => (items fuel depth r).map fun (xs, rest) => (x :: xs, rest)
      | _ => none

/-- One entry or more, and the closing brace. -/
def entries : Nat → Nat → List Char → Result (List (String × Json))
  | 0, _, _ => none
  | fuel + 1, depth, s =>
    match key s with
    | none => none
    | some (k, r) =>
      match value fuel depth r with
      | none => none
      | some (x, r) =>
        match skipBlank r with
        | '}' :: r => some ([(k, x)], r)
        | ',' :: r => (entries fuel depth r).map fun (kvs, rest) => ((k, x) :: kvs, rest)
        | _ => none

end

/-- Levels of brackets that a text may nest. -/
def maxDepth : Nat := 127

/-- More calls than a text of this length can need: two for each character. -/
def fuelFor (s : List Char) : Nat := 2 * s.length + 2

/-- A whole text: one value, and blanks after it. -/
def complete (r : Result α) : Option α :=
  match r with
  | some (v, rest) => if (skipBlank rest).isEmpty then some v else none
  | none => none

end ManifestForm.Json.Parser

namespace ManifestForm.Json

/-- The value of a JSON text, or `none` when it is malformed. -/
def parse? (text : String) : Option Json :=
  let s := text.toList
  Parser.complete (Parser.value (Parser.fuelFor s) Parser.maxDepth s)

end ManifestForm.Json

namespace ManifestForm.Json.Parser

/-- What is left behind a string whose opening quote is past. -/
def skipString : List Char → Option (List Char)
  | [] => none
  | '"' :: r => some r
  | '\\' :: 'u' :: a :: b :: c :: d :: r =>
    match hex4? a b c d with
    | none => none
    | some _ => skipString r
  | '\\' :: c :: r =>
    match simpleEscape? c with
    | none => none
    | some _ => skipString r
  | c :: r => if c.toNat < 0x20 then none else skipString r

def skipScalar (s : List Char) : Option (List Char) :=
  match s with
  | '"' :: r => skipString r
  | 'n' :: _ | 't' :: _ | 'f' :: _ => (scalar s).map (·.2)
  | _ => (numeral s).map (·.2)

/-- What is left behind a key and its colon. -/
def skipKey (s : List Char) : Option (List Char) :=
  match skipBlank s with
  | '"' :: r =>
    match (skipString r).map skipBlank with
    | some (':' :: r) => some r
    | _ => none
  | _ => none

mutual

/-- What is left behind a value. -/
def skipValue : Nat → List Char → Option (List Char)
  | 0, _ => none
  | fuel + 1, s =>
    match skipBlank s with
    | '[' :: r =>
      match skipBlank r with
      | ']' :: r => some r
      | _ => skipItems fuel r
    | '{' :: r =>
      match skipBlank r with
      | '}' :: r => some r
      | _ => skipEntries fuel r
    | s => skipScalar s

def skipItems : Nat → List Char → Option (List Char)
  | 0, _ => none
  | fuel + 1, s =>
    match (skipValue fuel s).map skipBlank with
    | some (']' :: r) => some r
    | some (',' :: r) => skipItems fuel r
    | _ => none

def skipEntries : Nat → List Char → Option (List Char)
  | 0, _ => none
  | fuel + 1, s =>
    match skipKey s with
    | none => none
    | some r =>
      match (skipValue fuel r).map skipBlank with
      | some ('}' :: r) => some r
      | some (',' :: r) => skipEntries fuel r
      | _ => none

end

end ManifestForm.Json.Parser
