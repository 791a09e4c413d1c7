import ManifestForm.Yaml.Node
import ManifestForm.Yaml.Token.Stream

/-! # Documents from tokens

Recursive descent over the token stream. The documents before a fault are kept, so the first one
can be had without regard to what is wrong behind it. A node that is left out is the scalar
`~` at the token seen in its place.
-/

namespace ManifestForm.Yaml

/-- The tokens still to be read, and the anchors of the current document. -/
structure Reading where
  tokens : List Delivered
  fault : Option Fault
  /-- How far the text had been read for the last token looked at. -/
  reach : Mark
  anchors : List (String × Nat)
  nextAnchor : Nat

namespace Reading

def ofStream (s : TokenStream) : Reading := ⟨s.tokens, s.fault, .start, [], 1⟩

/-- The next token, which stays. -/
def look (r : Reading) : Except Fault (Lexeme × Reading) :=
  match r.tokens with
  | [] => .error (r.fault.getD ⟨.textEnd, r.reach⟩)
  | d :: _ => .ok (d.lexeme, { r with reach := d.reach })

def tail (r : Reading) : Reading := { r with tokens := r.tokens.drop 1 }

def dropWhile (test : Token → Bool) (r : Reading) : Reading :=
  { r with tokens := r.tokens.dropWhile fun d => test d.lexeme.token }

/-- A name seen again gets a new anchor at once. -/
def register (name : String) (r : Reading) : Nat × Reading :=
  (r.nextAnchor,
    { r with anchors := (name, r.nextAnchor) :: r.anchors, nextAnchor := r.nextAnchor + 1 })

/-- Anchor and tag in either order, each at most once. -/
def properties (r : Reading) : Except Fault (Option Nat × Option Tag × Reading) := do
  let (t, r) ← r.look
  match t.token with
  | .anchor name =>
    let (id, r) := r.tail.register name
    let (t, r) ← r.look
    match t.token with
    | .tag tag => return (some id, some tag, r.tail)
    | _ => return (some id, none, r)
  | .tag tag =>
    let (t, r) ← r.tail.look
    match t.token with
    | .anchor name =>
      let (id, r) := r.tail.register name
      return (some id, some tag, r)
    | _ => return (none, some tag, r)
  | _ => return (none, none, r)

/-- A node has been left out before these tokens of a block mapping. -/
def endsBlockPart : Token → Bool
  | .key | .value | .blockEnd => true
  | _ => false

/-- A node has been left out before these tokens of a block sequence. -/
def endsBlockItem : Token → Bool
  | .blockEntry | .blockEnd => true
  | _ => false

/-- A node has been left out before these tokens of a sequence that is not indented. -/
def endsIndentlessItem : Token → Bool
  | .blockEntry | .key | .value | .blockEnd => true
  | _ => false

/-- A key has been left out before these tokens of a flow mapping. -/
def endsFlowKey : Token → Bool
  | .value | .flowEntry | .flowMappingEnd => true
  | _ => false

def endsFlowValue : Token → Bool
  | .flowEntry | .flowMappingEnd => true
  | _ => false

/-- A key has been left out before these tokens of a pair in a flow sequence. -/
def endsPairKey : Token → Bool
  | .value | .flowEntry | .flowSequenceEnd => true
  | _ => false

def endsPairValue : Token → Bool
  | .flowEntry | .flowSequenceEnd => true
  | _ => false

/-- The content of a document has been left out before these tokens. -/
def endsDocument : Token → Bool
  | .directive | .documentStart | .documentEnd | .streamEnd => true
  | _ => false

/-- Items or entries with the position of their end. -/
abbrev Children (α : Type) := List α × Mark × Reading

mutual

/-- A node; `block` allows block collections, `indentless` a sequence that is not indented. -/
def node : Nat → Bool → Bool → Reading → Except Fault (Node Mark × Reading)
  | 0, _, _, r => .error ⟨.textEnd, r.reach⟩
  | fuel + 1, block, indentless, r => do
    let (t, r) ← r.look
    match t.token with
    | .alias name =>
      match r.anchors.lookup name with
      | none => throw ⟨.unknownAnchor, t.mark⟩
      | some id => return (.alias t.mark id, r.tail)
    | _ =>
      let (anchor, tag, r) ← r.properties
      content fuel block indentless anchor tag r

/-- A node behind its properties. -/
def content : Nat → Bool → Bool → Option Nat → Option Tag → Reading →
    Except Fault (Node Mark × Reading)
  | 0, _, _, _, _, r => .error ⟨.textEnd, r.reach⟩
  | fuel + 1, block, indentless, anchor, tag, r => do
    let (t, r) ← r.look
    let sequence (c : Children (Node Mark)) : Node Mark × Reading :=
      (.sequence t.mark anchor c.1 c.2.1, c.2.2)
    let mapping (c : Children (Node Mark × Node Mark)) : Node Mark × Reading :=
      (.mapping t.mark anchor c.1 c.2.1, c.2.2)
    match t.token, block, indentless with
    | .scalar style text, _, _ => return (.scalar t.mark text style tag anchor, r.tail)
    | .blockEntry, _, true => return sequence (← indentlessItems fuel r)
    | .flowSequenceStart, _, _ => return sequence (← flowItems fuel true r.tail)
    | .flowMappingStart, _, _ => return mapping (← flowEntries fuel true r.tail)
    | .blockSequenceStart, true, _ => return sequence (← blockItems fuel r.tail)
    | .blockMappingStart, true, _ => return mapping (← blockEntries fuel r.tail)
    | _, _, _ =>
      if tag.isSome || anchor.isSome then return (.scalar t.mark "" .plain tag anchor, r)
      else throw ⟨.nodeContent, t.mark⟩

def blockItems : Nat → Reading → Except Fault (Children (Node Mark))
  | 0, r => .error ⟨.textEnd, r.reach⟩
  | fuel + 1, r => do
    let (t, r) ← r.look
    match t.token with
    | .blockEnd => return ([], t.mark, r.tail)
    | .blockEntry =>
      let (t, r) ← r.tail.look
      let (n, r) ←
        if endsBlockItem t.token then pure (.absent t.mark, r) else node fuel true false r
      let (ns, rest) ← blockItems fuel r
      return (n :: ns, rest)
    | _ => throw ⟨.blockSequenceEntry, t.mark⟩

def indentlessItems : Nat → Reading → Except Fault (Children (Node Mark))
  | 0, r => .error ⟨.textEnd, r.reach⟩
  | fuel + 1, r => do
    let (t, r) ← r.look
    match t.token with
    | .blockEntry =>
      let (t, r) ← r.tail.look
      let (n, r) ←
        if endsIndentlessItem t.token then pure (.absent t.mark, r) else node fuel true false r
      let (ns, rest) ← indentlessItems fuel r
      return (n :: ns, rest)
    | _ => return ([], t.mark, r)

def blockEntries : Nat → Reading → Except Fault (Children (Node Mark × Node Mark))
  | 0, r => .error ⟨.textEnd, r.reach⟩
  | fuel + 1, r => do
    let (t, r) ← r.look
    match t.token with
    | .blockEnd => return ([], t.mark, r.tail)
    | .key =>
      let (t, r) ← r.tail.look
      let (k, r) ←
        if endsBlockPart t.token then pure (.absent t.mark, r) else node fuel true true r
      let (v, r) ← blockValue fuel r
      let (es, rest) ← blockEntries fuel r
      return ((k, v) :: es, rest)
    | .value =>
      let (v, r) ← blockValue fuel r
      let (es, rest) ← blockEntries fuel r
      return ((.absent t.mark, v) :: es, rest)
    | _ => throw ⟨.blockMappingKey, t.mark⟩

def blockValue : Nat → Reading → Except Fault (Node Mark × Reading)
  | 0, r => .error ⟨.textEnd, r.reach⟩
  | fuel + 1, r => do
    let (t, r) ← r.look
    match t.token with
    | .value =>
      let (t, r) ← r.tail.look
      if endsBlockPart t.token then return (.absent t.mark, r) else node fuel true true r
    | _ => return (.absent t.mark, r)

/-- Entries up to the closing brace. A comma before it may stand alone, and then the mapping ends
at the comma. -/
def flowEntries : Nat → Bool → Reading → Except Fault (Children (Node Mark × Node Mark))
  | 0, _, r => .error ⟨.textEnd, r.reach⟩
  | fuel + 1, first, r => do
    let (t, r) ← r.look
    if t.token = .flowMappingEnd then return ([], t.mark, r.tail)
    if !first && t.token ≠ .flowEntry then throw ⟨.flowMappingEntry, t.mark⟩
    let (u, r) ← (if first then r else r.tail).look
    match u.token with
    | .flowMappingEnd => return ([], t.mark, r.tail)
    | .key =>
      let (w, r) ← r.tail.look
      let (k, r) ←
        if endsFlowKey w.token then pure (.absent w.mark, r) else node fuel false false r
      let (v, r) ← flowValue fuel r
      let (es, rest) ← flowEntries fuel false r
      return ((k, v) :: es, rest)
    | .value =>
      let (v, r) ← flowValue fuel r
      let (es, rest) ← flowEntries fuel false r
      return ((.absent u.mark, v) :: es, rest)
    | _ =>
      let (k, r) ← node fuel false false r
      let (w, r) ← r.look
      let (es, rest) ← flowEntries fuel false r
      return ((k, .absent w.mark) :: es, rest)

def flowValue : Nat → Reading → Except Fault (Node Mark × Reading)
  | 0, r => .error ⟨.textEnd, r.reach⟩
  | fuel + 1, r => do
    let (t, r) ← r.look
    match t.token with
    | .value =>
      let (u, r) ← r.tail.look
      if endsFlowValue u.token then return (.absent t.mark, r) else node fuel false false r
    | _ => return (.absent t.mark, r)

/-- Items up to the closing bracket, with pairs as mappings of one entry. -/
def flowItems : Nat → Bool → Reading → Except Fault (Children (Node Mark))
  | 0, _, r => .error ⟨.textEnd, r.reach⟩
  | fuel + 1, first, r => do
    let (t, r) ← r.look
    if t.token = .flowSequenceEnd then return ([], t.mark, r.tail)
    if !first && t.token ≠ .flowEntry then throw ⟨.flowSequenceEntry, t.mark⟩
    let (t, r) ← (if first then r else r.tail).look
    match t.token with
    | .flowSequenceEnd => return ([], t.mark, r.tail)
    | .key =>
      let (n, r) ← pair fuel t.mark r.tail
      let (ns, rest) ← flowItems fuel false r
      return (n :: ns, rest)
    | _ =>
      let (n, r) ← node fuel false false r
      let (ns, rest) ← flowItems fuel false r
      return (n :: ns, rest)

/-- A pair in a flow sequence, behind its key indicator. The token before which the key has been
left out is read as if it were the key. -/
def pair : Nat → Mark → Reading → Except Fault (Node Mark × Reading)
  | 0, _, r => .error ⟨.textEnd, r.reach⟩
  | fuel + 1, start, r => do
    let (t, r) ← r.look
    let (k, r) ←
      if endsPairKey t.token then pure (.absent t.mark, r.tail) else node fuel false false r
    let (t, r) ← r.look
    let (v, r) ←
      match t.token with
      | .value =>
        let (t, r) ← r.tail.look
        if endsPairValue t.token then pure (.absent t.mark, r) else node fuel false false r
      | _ => pure (.absent t.mark, r)
    return (.mapping start none [(k, v)] r.reach, r)

end

/-- A document that starts with its mark, directives first. -/
def explicitDocument (fuel : Nat) (r : Reading) : Except Fault (Mark × Node Mark × Reading) := do
  let (t, r) ← (r.dropWhile (· = .directive)).look
  match t.token with
  | .documentStart =>
    let (u, r) ← r.tail.look
    if endsDocument u.token then return (t.mark, .absent u.mark, r)
    else
      let (n, r) ← node fuel true false { r with anchors := [] }
      return (t.mark, n, r)
  | _ => throw ⟨.documentStart, t.mark⟩

/-- The next document, or `none` at the end of the text. Only the first one may do without a mark
at its start. -/
def document (fuel : Nat) (first : Bool) (r : Reading) :
    Except Fault (Option (Document Mark × Reading)) := do
  let r := if first then r else r.dropWhile (· = .documentEnd)
  let (t, r) ← r.look
  if t.token = .streamEnd then return none
  let (start, root, r) ←
    if !first || t.token = .directive || t.token = .documentStart then explicitDocument fuel r
    else (node fuel true false { r with anchors := [] }).map fun (n, r) => (t.mark, n, r)
  let (t, r) ← r.look
  return some (⟨start, root, t.mark⟩, if t.token = .documentEnd then r.tail else r)

end Reading

/-- The documents of a text up to the first fault in it. -/
structure Documents where
  complete : List (Document Mark)
  fault : Option Fault

namespace Documents

/-- The documents from here on; each takes at least one token. -/
def ofReading (fuel : Nat) : Nat → Bool → Reading → Documents
  | 0, _, _ => ⟨[], none⟩
  | count + 1, first, r =>
    match r.document fuel first with
    | .error e => ⟨[], some e⟩
    | .ok none => ⟨[], none⟩
    | .ok (some (d, r)) =>
      let rest := ofReading fuel count false r
      ⟨d :: rest.complete, rest.fault⟩

def ofText (text : String) : Documents :=
  let s := Token.stream text
  ofReading (4 * s.tokens.length + 16) (s.tokens.length + 1) true (Reading.ofStream s).tail

/-- All documents, unless there is a fault. -/
def all (ds : Documents) : Except Fault (List (Document Mark)) :=
  match ds.fault with
  | some e => .error e
  | none => .ok ds.complete

/-- The first document, whatever is wrong behind it. -/
def first? (ds : Documents) : Except Fault (Option (Document Mark)) :=
  match ds.complete, ds.fault with
  | d :: _, _ => .ok (some d)
  | [], some e => .error e
  | [], none => .ok none

end Documents

end ManifestForm.Yaml
