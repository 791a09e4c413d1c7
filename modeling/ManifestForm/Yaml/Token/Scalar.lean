import ManifestForm.Yaml.Token
import ManifestForm.Yaml.Token.Cursor

/-! # Scalars

Plain, quoted and block scalars. Within plain and quoted scalars a run of blanks and breaks is a
`Gap`: blanks alone are kept, a single break becomes a space, and of several breaks the first is
dropped.
-/

namespace ManifestForm.Yaml

/-- A run of blanks and breaks between two pieces of a scalar. -/
structure Gap where
  /-- The blanks before the first break. -/
  blanks : List Char
  /-- A break was read. -/
  broken : Bool
  /-- The first break was not escaped. -/
  folded : Bool
  /-- The breaks after the first. -/
  extra : Nat

namespace Gap

def none : Gap := ⟨[], false, false, 0⟩

/-- The gap that starts with an escaped break. -/
def escaped : Gap := ⟨[], true, false, 0⟩

def addBreak (g : Gap) : Gap :=
  if g.broken then { g with extra := g.extra + 1 } else ⟨[], true, true, 0⟩

def text (g : Gap) : List Char :=
  if !g.broken then g.blanks
  else if g.folded && g.extra = 0 then [' ']
  else List.replicate g.extra '\n'

/-- Reads on in the gap. `none` stands for a tab that indents a line by less than `indent`, and
the mark of the rest is that of the tab. -/
def readFrom (indent : Nat) (g : Gap) (m : Mark) : List Char → Option (Gap × Cursor)
  | [] => some (g, ⟨[], m⟩)
  | c :: r =>
    if isBlank c then
      if g.broken then
        if c = '\t' && m.column < indent then Option.none
        else readFrom indent g (m.after c) r
      else readFrom indent { g with blanks := g.blanks ++ [c] } (m.after c) r
    else if c = '\r' && r.head? = some '\n' then readFrom indent g (m.after c) r
    else if isBreak c then readFrom indent g.addBreak (m.after c) r
    else some (g, ⟨c :: r, m⟩)

def read (indent : Nat) (g : Gap) (c : Cursor) : Option (Gap × Cursor) :=
  readFrom indent g c.mark c.rest

end Gap

namespace Plain

/-- The characters of a plain scalar up to the next gap or the end of the scalar. -/
def chunkFrom (inFlow : Bool) (m : Mark) : List Char → List Char × Cursor
  | [] => ([], ⟨[], m⟩)
  | c :: r =>
    let next := r.headD nul
    if isGap c || (c = ':' && (isGap next || (inFlow && isFlow next))) || (inFlow && isFlow c) then
      ([], ⟨c :: r, m⟩)
    else
      let (cs, cursor) := chunkFrom inFlow (m.after c) r
      (c :: cs, cursor)

/-- Chunks and gaps by turns. The gap returned stands behind the last chunk. -/
def pieces (inFlow : Bool) (indent : Nat) :
    Nat → List Char → Gap → Cursor → Option (List Char × Gap × Cursor)
  | 0, text, gap, c => some (text, gap, c)
  | fuel + 1, text, gap, c =>
    if c.atDocumentMark || c.peek = '#' then some (text, gap, c)
    else
      let (chunk, next) := chunkFrom inFlow c.mark c.rest
      let (text, gap) := if chunk.isEmpty then (text, gap) else (text ++ gap.text ++ chunk, .none)
      if !(isBlank next.peek || isBreak next.peek) then some (text, gap, next)
      else
        match gap.read indent next with
        | none => none
        | some (gap, next) =>
          if !inFlow && next.mark.column < indent then some (text, gap, next)
          else pieces inFlow indent fuel text gap next

/-- A plain scalar in a context indented by `indent`: its text, and whether a break follows it. -/
def scan (inFlow : Bool) (indent : Nat) (c : Cursor) :
    Except Fault (List Char × Bool × Cursor) :=
  match pieces inFlow indent (c.rest.length + 1) [] .none c with
  | none => .error ⟨.plainTab, c.mark⟩
  | some (text, gap, next) => .ok (text, gap.broken, next)

end Plain

namespace Quoted

/-- The character that a backslash and this one stand for. -/
def simpleEscape? : Char → Option Char
  | '0' => some '\x00'
  | 'a' => some '\x07'
  | 'b' => some '\x08'
  | 't' => some '\t'
  | '\t' => some '\t'
  | 'n' => some '\n'
  | 'v' => some '\x0b'
  | 'f' => some '\x0c'
  | 'r' => some '\r'
  | 'e' => some '\x1b'
  | ' ' => some ' '
  | '"' => some '"'
  | '\'' => some '\''
  | '\\' => some '\\'
  | 'N' => some '\u0085'
  | '_' => some '\u00A0'
  | 'L' => some '\u2028'
  | 'P' => some '\u2029'
  | _ => none

/-- The hexadecimal digits behind an escape letter. -/
def escapeWidth? : Char → Option Nat
  | 'x' => some 2
  | 'u' => some 4
  | 'U' => some 8
  | _ => none

/-- The value of `width` hexadecimal digits. -/
def hexNumber? (cs : List Char) (width : Nat) : Option Nat :=
  let ds := cs.take width
  if ds.length = width then
    ds.foldl (fun n c => do return (← n) * 16 + (← hexValue? c)) (some 0)
  else none

def isScalarValue (n : Nat) : Bool := n < 0xD800 || (0xE000 ≤ n && n < 0x110000)

/-- The escape sequence at a backslash. -/
def escape (start : Mark) (c : Cursor) : Except Fault (Char × Cursor) :=
  let letter := c.ahead 1
  let digits := c.skip.skip
  match simpleEscape? letter, escapeWidth? letter with
  | some x, _ => .ok (x, digits)
  | none, none => .error ⟨.quotedEscape, start⟩
  | none, some width =>
    match hexNumber? digits.rest width with
    | none => .error ⟨.quotedHexadecimal, start⟩
    | some n =>
      if isScalarValue n then .ok (Char.ofNat n, digits.skipN width)
      else .error ⟨.quotedCharacter, start⟩

/-- The characters up to the next gap or the closing quote, and the gap that an escaped break
starts. -/
def chunk (single : Bool) (start : Mark) : Nat → Cursor → Except Fault (List Char × Gap × Cursor)
  | 0, c => .ok ([], .none, c)
  | fuel + 1, c =>
    let x := c.peek
    let add (y : Char) (next : Cursor) : Except Fault (List Char × Gap × Cursor) :=
      (chunk single start fuel next).map fun (cs, rest) => (y :: cs, rest)
    if isGap x then .ok ([], .none, c)
    else if single then
      if x ≠ '\'' then add x c.skip
      else if c.ahead 1 = '\'' then add '\'' c.skip.skip
      else .ok ([], .none, c)
    else if x = '"' then .ok ([], .none, c)
    else if x ≠ '\\' then add x c.skip
    else if isBreak (c.ahead 1) then .ok ([], .escaped, c.skip.skipBreak)
    else
      match escape start c with
      | .error e => .error e
      | .ok (y, next) => add y next

/-- Chunks and gaps by turns up to the closing quote, which is not read. -/
def pieces (single : Bool) (start : Mark) : Nat → Cursor → Except Fault (List Char × Cursor)
  | 0, c => .ok ([], c)
  | fuel + 1, c =>
    if c.atDocumentMark then .error ⟨.quotedDocument, start⟩
    else if c.peek = nul then .error ⟨.quotedEnd, start⟩
    else
      match chunk single start (c.rest.length + 1) c with
      | .error e => .error e
      | .ok (cs, gap, next) =>
        if next.peek = (if single then '\'' else '"') then .ok (cs, next)
        else
          match gap.read 0 next with
          | none => .error ⟨.quotedEnd, start⟩
          | some (gap, next) =>
            (pieces single start fuel next).map fun (more, rest) => (cs ++ gap.text ++ more, rest)

/-- A quoted scalar, from its opening quote to behind the closing one. -/
def scan (single : Bool) (c : Cursor) : Except Fault (List Char × Cursor) :=
  (pieces single c.mark (c.rest.length + 1) c.skip).map fun (cs, next) => (cs, next.skip)

end Quoted

namespace Block

/-- What becomes of the breaks at the end of a block scalar. -/
inductive Chomping where
  | strip
  | clip
  | keep
  deriving DecidableEq, Repr

structure Header where
  chomping : Chomping
  /-- The digit that gives the indentation, or 0 when it is to be detected. -/
  indent : Nat

/-- The chomping that a sign asks for. -/
def sign? (c : Char) : Option Chomping :=
  if c = '+' then some .keep else if c = '-' then some .strip else none

/-- A digit other than 0, if a digit stands here. -/
def digit (start : Mark) (c : Cursor) : Except Fault (Nat × Cursor) :=
  if !isDigit c.peek then .ok (0, c)
  else if c.peek = '0' then .error ⟨.blockIndentZero, start⟩
  else .ok (c.peek.toNat - 48, c.skip)

/-- The indicators behind the bar or angle, in either order. -/
def indicators (start : Mark) (c : Cursor) : Except Fault (Header × Cursor) :=
  match sign? c.peek with
  | some chomping => (digit start c.skip).map fun (n, c) => (⟨chomping, n⟩, c)
  | none =>
    (digit start c).map fun (n, next) =>
      match (if n = 0 then none else sign? next.peek) with
      | some chomping => (⟨chomping, n⟩, next.skip)
      | none => (⟨.clip, n⟩, next)

/-- The first line of a block scalar, up to behind its break. -/
def header (c : Cursor) : Except Fault (Header × Cursor) :=
  match indicators c.mark c.skip with
  | .error e => .error e
  | .ok (h, next) =>
    let next := next.skipBlanks.skipComment
    if isBreakOrEnd next.peek then .ok (h, next.skipBreak) else .error ⟨.blockHeader, c.mark⟩

/-- Empty lines and the spaces before the next content. `indent = 0` lets any number of spaces
pass. Returns the greatest column seen and the number of breaks. -/
def emptyLinesFrom (indent : Nat) (widest breaks : Nat) (m : Mark) :
    List Char → Except Fault (Nat × Nat × Cursor)
  | [] => .ok (max widest m.column, breaks, ⟨[], m⟩)
  | '\r' :: '\n' :: r =>
    emptyLinesFrom indent (max widest m.column) (breaks + 1) ((m.after '\r').after '\n') r
  | c :: r =>
    let indenting := indent = 0 || m.column < indent
    if indenting && c = ' ' then emptyLinesFrom indent widest breaks (m.after c) r
    else if indenting && c = '\t' then .error ⟨.blockTab, m⟩
    else if isBreak c then
      emptyLinesFrom indent (max widest m.column) (breaks + 1) (m.after c) r
    else .ok (max widest m.column, breaks, ⟨c :: r, m⟩)

/-- The same with the indentation settled: a detected one is that of the widest line, and at least
one more than the surrounding `parent`. -/
def emptyLines (parent : Int) (indent : Nat) (c : Cursor) :
    Except Fault (Nat × Nat × Cursor) :=
  (emptyLinesFrom indent 0 0 c.mark c.rest).map fun (widest, breaks, next) =>
    (if indent = 0 then max widest (max (parent + 1).toNat 1) else indent, breaks, next)

/-- The lines of the content. `lead` tells whether the break of the line before is still to be
written, `blank` whether that line started with a blank, and `empty` counts the empty lines
between. -/
def content (literal : Bool) (chomping : Chomping) (parent : Int) :
    Nat → Nat → Bool → Bool → Nat → Cursor → Except Fault (List Char × Cursor)
  | 0, _, _, _, _, c => .ok ([], c)
  | fuel + 1, indent, lead, blank, empty, c =>
    if c.mark.column = indent && c.peek ≠ nul then
      let startsBlank := isBlank c.peek
      let folds := !literal && lead && !blank && !startsBlank
      let before : List Char :=
        (if folds then (if empty = 0 then [' '] else []) else if lead then ['\n'] else []) ++
          List.replicate empty '\n'
      let (line, next) := c.takeWhile (fun x => !isBreakOrEnd x)
      if next.peek = nul then .ok (before ++ line, next)
      else
        match emptyLines parent indent next.skipBreak with
        | .error e => .error e
        | .ok (indent, empty, next) =>
          (content literal chomping parent fuel indent true startsBlank empty next).map
            fun (more, rest) => (before ++ line ++ more, rest)
    else
      let last := if lead && chomping ≠ .strip then ['\n'] else []
      let trailing := if chomping = .keep then List.replicate empty '\n' else []
      .ok (last ++ trailing, c)

/-- A block scalar from its bar or angle on: the mark of its first content, and its text. -/
def scan (literal : Bool) (parent : Int) (c : Cursor) :
    Except Fault (Mark × List Char × Cursor) :=
  match header c with
  | .error e => .error e
  | .ok (h, next) =>
    let given :=
      if h.indent = 0 then 0
      else if 0 ≤ parent then parent.toNat + h.indent
      else h.indent
    match emptyLines parent given next with
    | .error e => .error e
    | .ok (indent, empty, next) =>
      (content literal h.chomping parent (next.rest.length + 1) indent false false empty next).map
        fun (text, rest) => (next.mark, text, rest)

end Block

end ManifestForm.Yaml
