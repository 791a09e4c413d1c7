import ManifestForm.Yaml.Token.Cursor
import ManifestForm.Yaml.Token.Scalar

/-! # The token stream of a text

Tokens are read one construct at a time and wait in a queue, because a value indicator can turn
what stands before it into a key: the key token, and the start of a block mapping, are then put
into the queue in front of it. A token is delivered once no key can be put before it any more.
`Token.stream` delivers all tokens up to the first fault.
-/

namespace ManifestForm.Yaml

/-- What may turn out to be a key. -/
structure KeyCandidate where
  possible : Bool
  /-- It starts a line of a block that surrounds a flow collection, so a colon must follow. -/
  required : Bool
  /-- The number of its first token. -/
  number : Nat
  mark : Mark

namespace KeyCandidate

def none : KeyCandidate := ⟨false, false, 0, ⟨0, 0, 0⟩⟩

/-- A key must lie on one line and within 1024 characters. -/
def isStale (now : Mark) (k : KeyCandidate) : Bool :=
  k.possible && (k.mark.line < now.line || k.mark.index + 1024 < now.index)

end KeyCandidate

/-- A token handed out, with the mark up to which the text had been read by then. -/
structure Delivered where
  lexeme : Lexeme
  reach : Mark

/-- All tokens up to the end of the text or a fault in it. -/
structure TokenStream where
  tokens : List Delivered
  fault : Option Fault

/-- The state of reading tokens. -/
structure Scanner where
  cursor : Cursor
  started : Bool
  queue : List Lexeme
  /-- The number of tokens handed out. -/
  delivered : Nat
  /-- The column of the innermost block collection, or -1 outside all of them. -/
  indent : Int
  indents : List Int
  /-- The number of open flow collections. -/
  flow : Nat
  keyAllowed : Bool
  /-- One candidate for the block level and one for each open flow collection, innermost first. -/
  keys : List KeyCandidate
  /-- Where the last quoted scalar ended; a value may follow it at once. -/
  adjacent : Nat

namespace Scanner

def ofText (text : String) : Scanner :=
  ⟨.ofText text, false, [], 0, -1, [], 0, true, [.none], 0⟩

def here (s : Scanner) : Mark := s.cursor.mark

def push (mark : Mark) (token : Token) (s : Scanner) : Scanner :=
  { s with queue := s.queue ++ [⟨mark, token⟩] }

/-- Puts a token before the one with the given number. -/
def insertAt (number : Nat) (mark : Mark) (token : Token) (s : Scanner) : Scanner :=
  { s with queue := s.queue.insertIdx (number - s.delivered) ⟨mark, token⟩ }

/-- Candidates too far behind are no keys any more. -/
def dropStaleKeys (s : Scanner) : Except Fault Scanner :=
  if s.keys.any fun k => k.isStale s.here && k.required then .error ⟨.keyWithoutColon, s.here⟩
  else
    .ok { s with
      keys := s.keys.map fun k => if k.isStale s.here then { k with possible := false } else k }

/-- Gives up the innermost candidate. -/
def dropKey (s : Scanner) : Except Fault Scanner :=
  match s.keys with
  | [] => .ok s
  | k :: ks =>
    if k.possible && k.required then .error ⟨.keyAbandoned, s.here⟩
    else .ok { s with keys := { k with possible := false } :: ks }

/-- The token that comes next may start a key. -/
def saveKey (s : Scanner) : Except Fault Scanner :=
  if s.keyAllowed then
    s.dropKey.map fun t =>
      let required := 0 < s.flow && s.indent = s.here.column
      let k : KeyCandidate := ⟨true, required, s.delivered + s.queue.length, s.here⟩
      { t with keys := k :: t.keys.drop 1 }
  else .ok s

/-- Ends the block collections indented by more than the column. -/
def unrollFrom (mark : Mark) (column : Int) : Int → List Int → List Lexeme × Int × List Int
  | indent, [] => ([], indent, [])
  | indent, outer :: more =>
    if column < indent then
      let (tokens, rest) := unrollFrom mark column outer more
      (⟨mark, .blockEnd⟩ :: tokens, rest)
    else ([], indent, outer :: more)

def unroll (column : Int) (s : Scanner) : Scanner :=
  if 0 < s.flow then s
  else
    let (tokens, indent, indents) := unrollFrom s.here column s.indent s.indents
    { s with queue := s.queue ++ tokens, indent, indents }

/-- Starts a block collection at the column, if it is indented by more than the one around it. -/
def roll (column : Nat) (number : Option Nat) (token : Token) (mark : Mark) (s : Scanner) :
    Scanner :=
  if 0 < s.flow || column ≤ s.indent then s
  else
    let s := { s with indents := s.indent :: s.indents, indent := column }
    match number with
    | some n => s.insertAt n mark token
    | none => s.push mark token

/-- The blanks, breaks and comments before the next token. A break outside flow collections
allows a key. -/
def skipFrom (inFlow keyAllowed : Bool) (m : Mark) : Bool → List Char → Bool × Cursor
  | _, [] => (keyAllowed, ⟨[], m⟩)
  | comment, c :: r =>
    if isBreak c then skipFrom inFlow (keyAllowed || !inFlow) (m.after c) false r
    else if comment && c ≠ nul then skipFrom inFlow keyAllowed (m.after c) true r
    else if c = ' ' || (c = '\t' && (inFlow || !keyAllowed)) then
      skipFrom inFlow keyAllowed (m.after c) false r
    else if c = '#' then skipFrom inFlow keyAllowed (m.after c) true r
    else (keyAllowed, ⟨c :: r, m⟩)

def skipToToken (s : Scanner) : Scanner :=
  let (keyAllowed, cursor) := skipFrom (0 < s.flow) s.keyAllowed s.here false s.cursor.rest
  { s with keyAllowed, cursor }

/-- One character as a token. -/
def single (token : Token) (s : Scanner) : Scanner :=
  { s.push s.here token with cursor := s.cursor.skip }

def streamEnd (s : Scanner) : Except Fault Scanner :=
  let m := s.here
  let s :=
    if m.column = 0 then s
    else { s with cursor := ⟨s.cursor.rest, ⟨m.index, m.line + 1, 0⟩⟩ }
  (s.unroll (-1)).dropKey.map fun s => { s with keyAllowed := false }.push s.here .streamEnd

def directive (s : Scanner) : Except Fault Scanner := do
  let s ← (s.unroll (-1)).dropKey
  let cursor ← Directive.scan s.cursor
  return { s with keyAllowed := false, cursor }.push s.here .directive

def documentMark (token : Token) (s : Scanner) : Except Fault Scanner := do
  let s ← (s.unroll (-1)).dropKey
  return { s with keyAllowed := false, cursor := s.cursor.skipN 3 }.push s.here token

def flowStart (token : Token) (s : Scanner) : Except Fault Scanner := do
  let s ← s.saveKey
  if 255 ≤ s.flow then throw ⟨.nestingTooDeep, s.here⟩
  return { s with keys := .none :: s.keys, flow := s.flow + 1, keyAllowed := true }.single token

def flowEnd (token : Token) (s : Scanner) : Except Fault Scanner := do
  let s ← s.dropKey
  let s := if 0 < s.flow then { s with flow := s.flow - 1, keys := s.keys.drop 1 } else s
  return { s with keyAllowed := false }.single token

def flowEntry (s : Scanner) : Except Fault Scanner := do
  let s ← s.dropKey
  return { s with keyAllowed := true }.single .flowEntry

def blockEntry (s : Scanner) : Except Fault Scanner := do
  if 0 < s.flow then throw ⟨.dashInFlow, s.here⟩
  if !s.keyAllowed then throw ⟨.entryNotAllowed, s.here⟩
  let s ← (s.roll s.here.column none .blockSequenceStart s.here).dropKey
  return { s with keyAllowed := true }.single .blockEntry

def explicitKey (s : Scanner) : Except Fault Scanner := do
  if s.flow = 0 && !s.keyAllowed then throw ⟨.keyNotAllowed, s.here⟩
  let s ← (s.roll s.here.column none .blockMappingStart s.here).dropKey
  return { s with keyAllowed := s.flow = 0 }.single .key

def value (s : Scanner) : Except Fault Scanner :=
  match s.keys with
  | k :: ks =>
    if k.possible then
      let s := (s.insertAt k.number k.mark .key).roll k.mark.column (some k.number)
        .blockMappingStart s.here
      .ok ({ s with keys := { k with possible := false } :: ks, keyAllowed := false }.single .value)
    else noKey
  | [] => noKey
where
  /-- The value of an explicit or an empty key. -/
  noKey : Except Fault Scanner :=
    if s.flow = 0 && !s.keyAllowed then .error ⟨.valueNotAllowed, s.here⟩
    else
      let s := s.roll s.here.column none .blockMappingStart s.here
      .ok ({ s with keyAllowed := s.flow = 0 }.single .value)

def anchor (token : String → Token) (s : Scanner) : Except Fault Scanner := do
  let s ← s.saveKey
  let (name, cursor) ← anchorName s.cursor
  return { s with keyAllowed := false, cursor }.push s.here (token name)

def tag (s : Scanner) : Except Fault Scanner := do
  let s ← s.saveKey
  let (tag, cursor) ← Tag.scan s.cursor
  return { s with keyAllowed := false, cursor }.push s.here (.tag tag)

def blockScalar (literal : Bool) (s : Scanner) : Except Fault Scanner := do
  let s ← s.saveKey
  let (mark, text, cursor) ← Block.scan literal s.indent s.cursor
  let style := if literal then Style.literal else .folded
  return { s with keyAllowed := true, cursor }.push mark (.scalar style (String.ofList text))

def quotedScalar (single : Bool) (s : Scanner) : Except Fault Scanner := do
  let s ← s.saveKey
  let (text, cursor) ← Quoted.scan single s.cursor
  let style := if single then Style.singleQuoted else .doubleQuoted
  return { s with keyAllowed := false, cursor, adjacent := cursor.mark.index }.push s.here
    (.scalar style (String.ofList text))

def plainScalar (s : Scanner) : Except Fault Scanner := do
  let s ← s.saveKey
  let (text, broken, cursor) ← Plain.scan (0 < s.flow) (s.indent + 1).toNat s.cursor
  return { s with keyAllowed := broken, cursor }.push s.here
    (.scalar .plain (String.ofList text))

/-- Whether a colon here separates a key from its value. -/
def atValue (s : Scanner) : Bool :=
  let next := s.cursor.ahead 1
  isGap next || (0 < s.flow && (isFlow next || s.here.index = s.adjacent))

/-- Reads the construct at the cursor. -/
def construct (s : Scanner) : Except Fault Scanner :=
  let c := s.cursor.peek
  let gapNext := isGap (s.cursor.ahead 1)
  if c = nul then s.streamEnd
  else if s.here.column = 0 && c = '%' then s.directive
  else if s.here.column = 0 && s.cursor.atTriple '-' then s.documentMark .documentStart
  else if s.here.column = 0 && s.cursor.atTriple '.' then s.documentMark .documentEnd
  else if c = '[' then s.flowStart .flowSequenceStart
  else if c = '{' then s.flowStart .flowMappingStart
  else if c = ']' then s.flowEnd .flowSequenceEnd
  else if c = '}' then s.flowEnd .flowMappingEnd
  else if c = ',' then s.flowEntry
  else if c = '-' && gapNext then s.blockEntry
  else if c = '?' && gapNext then s.explicitKey
  else if c = ':' && s.atValue then s.value
  else if c = '*' then s.anchor .alias
  else if c = '&' then s.anchor .anchor
  else if c = '!' then s.tag
  else if c = '|' && s.flow = 0 then s.blockScalar true
  else if c = '>' && s.flow = 0 then s.blockScalar false
  else if c = '\'' then s.quotedScalar true
  else if c = '"' then s.quotedScalar false
  else if c = '%' || c = '@' || c = '\x60' then .error ⟨.unexpectedCharacter c, s.here⟩
  else s.plainScalar

/-- Reads one more construct into the queue. -/
def fetch (s : Scanner) : Except Fault Scanner :=
  if !s.started then .ok ({ s with started := true }.push s.here .streamStart)
  else
    match s.skipToToken.dropStaleKeys with
    | .error e => .error e
    | .ok s => (s.unroll s.here.column).construct

/-- Whether a key may still be put before the first token of the queue. -/
def awaitsKey (s : Scanner) : Bool := s.keys.any fun k => k.possible && k.number = s.delivered

/-- The tokens from here on. -/
def stream : Nat → Scanner → TokenStream
  | 0, _ => ⟨[], none⟩
  | fuel + 1, s =>
    let fetched (s : Scanner) : TokenStream :=
      match s.fetch with
      | .error e => ⟨[], some e⟩
      | .ok s => stream fuel s
    match s.queue with
    | [] => fetched s
    | first :: queue =>
      match s.dropStaleKeys with
      | .error e => ⟨[], some e⟩
      | .ok s =>
        if s.awaitsKey then fetched s
        else
          let delivered : Delivered := ⟨first, s.here⟩
          if first.token = .streamEnd then ⟨[delivered], none⟩
          else
            let rest := stream fuel { s with queue, delivered := s.delivered + 1 }
            ⟨delivered :: rest.tokens, rest.fault⟩

end Scanner

/-- More steps than a text of this length can need: each character yields at most four tokens. -/
def Scanner.fuelFor (text : String) : Nat := 8 * text.length + 32

def Token.stream (text : String) : TokenStream :=
  (Scanner.ofText text).stream (Scanner.fuelFor text)

end ManifestForm.Yaml
