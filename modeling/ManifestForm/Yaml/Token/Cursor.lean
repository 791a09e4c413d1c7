import ManifestForm.Yaml.Token

/-! # Reading a text forwards

A cursor is the rest of the text and its mark. Behind the last character stand endless NUL
characters, and a NUL in the text counts as its end.

Anchors, tags and directives are read by a cursor. Directives have no effect, and tag handles are
never resolved, but both must be well formed.
-/

namespace ManifestForm.Yaml

def nul : Char := '\x00'

def isBreak (c : Char) : Bool := c = '\n' || c = '\r'

def isBlank (c : Char) : Bool := c = ' ' || c = '\t'

def isBreakOrEnd (c : Char) : Bool := isBreak c || c = nul

/-- Blank, line break or end. -/
def isGap (c : Char) : Bool := isBlank c || isBreakOrEnd c

def isDigit (c : Char) : Bool := '0' ≤ c && c ≤ '9'

/-- Letters, digits, the underscore and the dash, of ASCII only. -/
def isWord (c : Char) : Bool :=
  isDigit c || ('a' ≤ c && c ≤ 'z') || ('A' ≤ c && c ≤ 'Z') || c = '_' || c = '-'

/-- The characters that structure flow collections. -/
def isFlow (c : Char) : Bool := c = ',' || c = '[' || c = ']' || c = '{' || c = '}'

def hexValue? (c : Char) : Option Nat :=
  if '0' ≤ c ∧ c ≤ '9' then some (c.toNat - 48)
  else if 'a' ≤ c ∧ c ≤ 'f' then some (c.toNat - 87)
  else if 'A' ≤ c ∧ c ≤ 'F' then some (c.toNat - 55)
  else none

structure Cursor where
  rest : List Char
  mark : Mark

namespace Cursor

def ofText (text : String) : Cursor := ⟨text.toList, .start⟩

/-- The next character. -/
def peek (c : Cursor) : Char := c.rest.headD nul

/-- The character `n` places ahead. -/
def ahead (n : Nat) (c : Cursor) : Char := (c.rest.drop n).headD nul

def skip (c : Cursor) : Cursor :=
  match c.rest with
  | [] => c
  | x :: r => ⟨r, c.mark.after x⟩

def skipN : Nat → Cursor → Cursor
  | 0, c => c
  | n + 1, c => skipN n c.skip

/-- Skips a line feed, a carriage return, or both together. -/
def skipBreak (c : Cursor) : Cursor :=
  if c.peek = '\r' && c.ahead 1 = '\n' then c.skip.skip
  else if isBreak c.peek then c.skip
  else c

/-- The characters up to the first that fails the test, and the cursor there. -/
def takeWhileFrom (test : Char → Bool) (m : Mark) : List Char → List Char × Cursor
  | [] => ([], ⟨[], m⟩)
  | c :: r =>
    if test c then
      let (cs, cursor) := takeWhileFrom test (m.after c) r
      (c :: cs, cursor)
    else ([], ⟨c :: r, m⟩)

def takeWhile (test : Char → Bool) (c : Cursor) : List Char × Cursor :=
  takeWhileFrom test c.mark c.rest

def skipWhile (test : Char → Bool) (c : Cursor) : Cursor := (c.takeWhile test).2

def skipBlanks (c : Cursor) : Cursor := c.skipWhile isBlank

/-- Skips a comment, if one starts here, up to the end of its line. -/
def skipComment (c : Cursor) : Cursor :=
  if c.peek = '#' then c.skipWhile (fun x => !isBreakOrEnd x) else c

/-- Three equal characters, and a gap behind them. -/
def atTriple (x : Char) (c : Cursor) : Bool :=
  c.peek = x && c.ahead 1 = x && c.ahead 2 = x && isGap (c.ahead 3)

/-- Whether a line starts here with one of the marks between documents. -/
def atDocumentMark (c : Cursor) : Bool :=
  c.mark.column = 0 && (c.atTriple '-' || c.atTriple '.')

end Cursor

/-- Whether a name may end before this character. -/
def endsName (c : Char) : Bool :=
  isGap c || c = '?' || c = ':' || c = ',' || c = ']' || c = '}' || c = '%' || c = '@' ||
    c = '\x60'

/-- The name behind an ampersand or asterisk. -/
def anchorName (c : Cursor) : Except Fault (String × Cursor) :=
  let (name, next) := c.skip.takeWhile isWord
  if name.isEmpty || !endsName next.peek then .error ⟨.anchorName, c.mark⟩
  else .ok (String.ofList name, next)

namespace Tag

def isUri (c : Char) : Bool :=
  isWord c || c = ';' || c = '/' || c = '?' || c = ':' || c = '@' || c = '&' || c = '=' ||
    c = '+' || c = '$' || c = ',' || c = '.' || c = '!' || c = '~' || c = '*' || c = '\'' ||
    c = '(' || c = ')' || c = '[' || c = ']' || c = '%'

/-- The octet of a percent escape. -/
def octet? (c : Cursor) : Option Nat :=
  if c.peek = '%' then do return (← hexValue? (c.ahead 1)) * 16 + (← hexValue? (c.ahead 2))
  else none

/-- How many octets the first one announces. -/
def octetCount? (n : Nat) : Option Nat :=
  if n < 0x80 then some 1
  else if 0xC0 ≤ n ∧ n < 0xE0 then some 2
  else if 0xE0 ≤ n ∧ n < 0xF0 then some 3
  else if 0xF0 ≤ n ∧ n < 0xF8 then some 4
  else none

/-- The octets that follow the first, put behind it as they are. -/
def trailingOctets (start : Mark) : Nat → Nat → Cursor → Except Fault (Nat × Cursor)
  | 0, code, c => .ok (code, c)
  | n + 1, code, c =>
    match octet? c with
    | none => .error ⟨.uriOctet, start⟩
    | some o =>
      if 0x80 ≤ o ∧ o < 0xC0 then trailingOctets start n (code * 256 + o) (c.skipN 3)
      else .error ⟨.uriTrailingOctet, start⟩

/-- A character written as percent escapes. Its octets are read as one number. -/
def uriEscape (start : Mark) (c : Cursor) : Except Fault (Char × Cursor) :=
  match octet? c with
  | none => .error ⟨.uriOctet, start⟩
  | some first =>
    match octetCount? first with
    | none => .error ⟨.uriLeadingOctet, start⟩
    | some count =>
      match trailingOctets start (count - 1) first (c.skipN 3) with
      | .error e => .error e
      | .ok (code, next) =>
        if code < 0xD800 || (0xE000 ≤ code && code < 0x110000) then .ok (Char.ofNat code, next)
        else .error ⟨.uriCharacter, start⟩

def uriFrom (start : Mark) : Nat → Cursor → Except Fault (List Char × Cursor)
  | 0, c => .ok ([], c)
  | fuel + 1, c =>
    if !isUri c.peek then .ok ([], c)
    else if c.peek = '%' then
      match uriEscape start c with
      | .error e => .error e
      | .ok (x, next) => (uriFrom start fuel next).map fun (xs, rest) => (x :: xs, rest)
    else (uriFrom start fuel c.skip).map fun (xs, rest) => (c.peek :: xs, rest)

/-- The characters of a URI, possibly none. -/
def uri (start : Mark) (c : Cursor) : Except Fault (List Char × Cursor) :=
  uriFrom start (c.rest.length + 1) c

/-- The same, but not empty. -/
def someUri (start : Mark) (c : Cursor) : Except Fault (List Char × Cursor) :=
  match uri start c with
  | .ok ([], _) => .error ⟨.tagUri, start⟩
  | r => r

/-- An exclamation mark, a name, and an exclamation mark if one is there. -/
def handleText (start : Mark) (c : Cursor) : Except Fault (List Char × Cursor) :=
  if c.peek ≠ '!' then .error ⟨.tagHandle, start⟩
  else
    let (name, next) := c.skip.takeWhile isWord
    if next.peek = '!' then .ok ('!' :: (name ++ ['!']), next.skip) else .ok ('!' :: name, next)

def isClosed (handle : List Char) : Bool := 2 ≤ handle.length && handle.getLast? = some '!'

/-- Handle and suffix of a tag that is not verbatim. -/
def shorthand (start : Mark) (c : Cursor) : Except Fault (Tag × Cursor) :=
  match handleText start c with
  | .error e => .error e
  | .ok (h, next) =>
    if isClosed h then
      (someUri start next).map fun (suffix, rest) => (⟨String.ofList h, String.ofList suffix⟩, rest)
    else
      (uri start next).map fun (more, rest) =>
        let suffix := h.drop 1 ++ more
        (if suffix.isEmpty then ⟨"", "!"⟩ else ⟨"!", String.ofList suffix⟩, rest)

/-- A tag between angle brackets. -/
def verbatim (start : Mark) (c : Cursor) : Except Fault (Tag × Cursor) :=
  match someUri start c.skip.skip with
  | .error e => .error e
  | .ok (suffix, next) =>
    if next.peek = '>' then .ok (⟨"", String.ofList suffix⟩, next.skip)
    else .error ⟨.verbatimTagEnd, start⟩

/-- The tag at an exclamation mark. -/
def scan (c : Cursor) : Except Fault (Tag × Cursor) :=
  match (if c.ahead 1 = '<' then verbatim c.mark c else shorthand c.mark c) with
  | .error e => .error e
  | .ok (tag, next) => if isGap next.peek then .ok (tag, next) else .error ⟨.tagTail, c.mark⟩

end Tag

namespace Directive

def name (c : Cursor) : Except Fault (List Char × Cursor) :=
  let (cs, next) := c.takeWhile isWord
  if cs.isEmpty then .error ⟨.directiveName, c.mark⟩
  else if !isGap next.peek then .error ⟨.directiveCharacter, c.mark⟩
  else .ok (cs, next)

/-- One to nine digits. -/
def versionNumber (start : Mark) (c : Cursor) : Except Fault Cursor :=
  let (ds, next) := c.takeWhile isDigit
  if 9 < ds.length then .error ⟨.versionTooLong, start⟩
  else if ds.isEmpty then .error ⟨.versionNumber, start⟩
  else .ok next

def version (start : Mark) (c : Cursor) : Except Fault Cursor :=
  match versionNumber start c.skipBlanks with
  | .error e => .error e
  | .ok next =>
    if next.peek ≠ '.' then .error ⟨.versionCharacter, start⟩
    else versionNumber start next.skip

def tagShorthand (start : Mark) (c : Cursor) : Except Fault Cursor :=
  match Tag.handleText start c.skipBlanks with
  | .error e => .error e
  | .ok (h, next) =>
    if h.getLast? ≠ some '!' then .error ⟨.tagDirectiveHandle, start⟩
    else
      match Tag.someUri start next.skipBlanks with
      | .error e => .error e
      | .ok (_, next) => if isGap next.peek then .ok next else .error ⟨.tagDirectiveTail, start⟩

/-- The parameters of a directive; those of an unknown one are skipped. -/
def parameters (start : Mark) (name : List Char) (c : Cursor) : Except Fault Cursor :=
  if name = ['Y', 'A', 'M', 'L'] then version start c
  else if name = ['T', 'A', 'G'] then tagShorthand start c
  else .ok (c.skipWhile fun x => !isBreakOrEnd x)

/-- The directive at a percent sign, up to behind its line. -/
def scan (c : Cursor) : Except Fault Cursor :=
  match name c.skip with
  | .error e => .error e
  | .ok (cs, next) =>
    match parameters c.mark cs next with
    | .error e => .error e
    | .ok next =>
      let next := next.skipBlanks.skipComment
      if isBreakOrEnd next.peek then .ok next.skipBreak else .error ⟨.directiveTail, c.mark⟩

end Directive

end ManifestForm.Yaml
