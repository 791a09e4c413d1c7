/-! # Marks, faults and tokens of a YAML text

A mark is a place in the text: characters before it, its line from 1 and its column from 0. Only a
line feed starts a new line. A fault is what is wrong and where.
-/

namespace ManifestForm.Yaml

structure Mark where
  index : Nat
  line : Nat
  column : Nat
  deriving DecidableEq, Repr

namespace Mark

def start : Mark := ⟨0, 1, 0⟩

/-- The mark behind a character. -/
def after (m : Mark) (c : Char) : Mark :=
  if c = '\n' then ⟨m.index + 1, m.line + 1, 0⟩ else ⟨m.index + 1, m.line, m.column + 1⟩

end Mark

/-- What makes a text malformed. -/
inductive Problem where
  | keyWithoutColon
  | keyAbandoned
  | nestingTooDeep
  | dashInFlow
  | entryNotAllowed
  | keyNotAllowed
  | valueNotAllowed
  | unexpectedCharacter (c : Char)
  | anchorName
  | directiveName
  | directiveCharacter
  | versionNumber
  | versionTooLong
  | versionCharacter
  | directiveTail
  | tagDirectiveTail
  | tagDirectiveHandle
  | tagHandle
  | tagUri
  | verbatimTagEnd
  | tagTail
  | uriOctet
  | uriLeadingOctet
  | uriTrailingOctet
  | uriCharacter
  | blockIndentZero
  | blockHeader
  | blockTab
  | quotedDocument
  | quotedEnd
  | quotedEscape
  | quotedHexadecimal
  | quotedCharacter
  | plainTab
  | textEnd
  | documentStart
  | unknownAnchor
  | nodeContent
  | blockMappingKey
  | blockSequenceEntry
  | flowMappingEntry
  | flowSequenceEntry
  deriving DecidableEq, Repr

def Problem.message : Problem → String
  | keyWithoutColon => "simple key expect ':'"
  | keyAbandoned => "simple key expected"
  | nestingTooDeep => "recursion limit exceeded"
  | dashInFlow => "\"-\" is only valid inside a block"
  | entryNotAllowed => "block sequence entries are not allowed in this context"
  | keyNotAllowed => "mapping keys are not allowed in this context"
  | valueNotAllowed => "mapping values are not allowed in this context"
  | unexpectedCharacter c => "unexpected character: " ++ String.ofList ['\x60', c, '\'']
  | anchorName =>
    "while scanning an anchor or alias, did not find expected alphabetic or numeric character"
  | directiveName => "while scanning a directive, could not find expected directive name"
  | directiveCharacter => "while scanning a directive, found unexpected non-alphabetical character"
  | versionNumber => "while scanning a YAML directive, did not find expected version number"
  | versionTooLong => "while scanning a YAML directive, found extremely long version number"
  | versionCharacter =>
    "while scanning a YAML directive, did not find expected digit or '.' character"
  | directiveTail => "while scanning a directive, did not find expected comment or line break"
  | tagDirectiveTail => "while scanning TAG, did not find expected whitespace or line break"
  | tagDirectiveHandle => "while parsing a tag directive, did not find expected '!'"
  | tagHandle => "while scanning a tag, did not find expected '!'"
  | tagUri => "while parsing a tag, did not find expected tag URI"
  | verbatimTagEnd => "while scanning a tag, did not find the expected '>'"
  | tagTail => "while scanning a tag, did not find expected whitespace or line break"
  | uriOctet => "while parsing a tag, did not find URI escaped octet"
  | uriLeadingOctet => "while parsing a tag, found an incorrect leading UTF-8 octet"
  | uriTrailingOctet => "while parsing a tag, found an incorrect trailing UTF-8 octet"
  | uriCharacter => "while parsing a tag, found an invalid UTF-8 codepoint"
  | blockIndentZero =>
    "while scanning a block scalar, found an indentation indicator equal to 0"
  | blockHeader =>
    "while scanning a block scalar, did not find expected comment or line break"
  | blockTab =>
    "while scanning a block scalar, found a tab character where an indentation space is expected"
  | quotedDocument => "while scanning a quoted scalar, found unexpected document indicator"
  | quotedEnd => "while scanning a quoted scalar, found unexpected end of stream"
  | quotedEscape => "while parsing a quoted scalar, found unknown escape character"
  | quotedHexadecimal =>
    "while parsing a quoted scalar, did not find expected hexadecimal number"
  | quotedCharacter =>
    "while parsing a quoted scalar, found invalid Unicode character escape code"
  | plainTab => "while scanning a plain scalar, found a tab"
  | textEnd => "unexpected eof"
  | documentStart => "did not find expected <document start>"
  | unknownAnchor => "while parsing node, found unknown anchor"
  | nodeContent => "while parsing a node, did not find expected node content"
  | blockMappingKey => "while parsing a block mapping, did not find expected key"
  | blockSequenceEntry =>
    "while parsing a block collection, did not find expected '-' indicator"
  | flowMappingEntry => "while parsing a flow mapping, did not find expected ',' or '\x7d'"
  | flowSequenceEntry => "while parsing a flow sequence, expected ',' or ']'"

structure Fault where
  problem : Problem
  mark : Mark
  deriving DecidableEq, Repr

/-- The problem with its line and column, both counted from 1. -/
def Fault.message (f : Fault) : String :=
  s!"{f.problem.message} at line {f.mark.line} column {f.mark.column + 1}"

/-- How a scalar was written. One that was left out has no text of its own. -/
inductive Style where
  | omitted
  | plain
  | singleQuoted
  | doubleQuoted
  | literal
  | folded
  deriving DecidableEq, Repr

/-- Whether the text alone tells what the scalar is. -/
def Style.isPlain : Style → Bool
  | .omitted | .plain => true
  | .singleQuoted | .doubleQuoted | .literal | .folded => false

/-- A tag as written: its handle, which is never resolved, and its suffix. -/
structure Tag where
  handle : String
  suffix : String
  deriving DecidableEq, Repr

inductive Token where
  | streamStart
  | streamEnd
  | directive
  | documentStart
  | documentEnd
  | blockSequenceStart
  | blockMappingStart
  | blockEnd
  | flowSequenceStart
  | flowSequenceEnd
  | flowMappingStart
  | flowMappingEnd
  | blockEntry
  | flowEntry
  | key
  | value
  | alias (name : String)
  | anchor (name : String)
  | tag (tag : Tag)
  | scalar (style : Style) (text : String)
  deriving DecidableEq, Repr

/-- A token at its place. -/
structure Lexeme where
  mark : Mark
  token : Token
  deriving DecidableEq, Repr

end ManifestForm.Yaml
