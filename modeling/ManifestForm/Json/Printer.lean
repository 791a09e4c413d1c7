import ManifestForm.Json.Basic
import ManifestForm.Number.Shortest

/-! # JSON text

`Json.compact` writes no blanks at all and `Json.pretty` indents by two spaces. Strings escape the
quote, the backslash and the characters below U+0020, so neither text holds a raw control
character of its own.
-/

namespace ManifestForm

namespace Number

def text : Number → List Char
  | .int n => (toString n).toList
  | .float x => x.text

end Number

namespace Json

/-- A hexadecimal digit in lower case. -/
def hexDigit (n : Nat) : Char := Nat.digitChar (n % 16)

/-- The text of one character within a string. -/
def escapeChar (c : Char) : List Char :=
  if c = '"' then ['\\', '"']
  else if c = '\\' then ['\\', '\\']
  else if c = '\n' then ['\\', 'n']
  else if c = '\r' then ['\\', 'r']
  else if c = '\t' then ['\\', 't']
  else if c.toNat = 8 then ['\\', 'b']
  else if c.toNat = 12 then ['\\', 'f']
  else if c.toNat < 32 then
    ['\\', 'u', '0', '0', hexDigit (c.toNat / 16), hexDigit c.toNat]
  else [c]

def quoted (s : String) : List Char :=
  '"' :: (s.toList.flatMap escapeChar ++ ['"'])

/-- Compact text: no blanks, entries in order. -/
def render : Json → List Char
  | .null => ['n', 'u', 'l', 'l']
  | .bool true => ['t', 'r', 'u', 'e']
  | .bool false => ['f', 'a', 'l', 's', 'e']
  | .num n => n.text
  | .str s => quoted s
  | .arr [] => ['[', ']']
  | .arr (x :: xs) => '[' :: (render x ++ renderItems xs)
  | .obj [] => ['{', '}']
  | .obj ((k, v) :: kvs) => '{' :: (quoted k ++ ':' :: (render v ++ renderEntries kvs))
where
  /-- The items after the first, each behind a comma, and the closing bracket. -/
  renderItems : List Json → List Char
    | [] => [']']
    | x :: xs => ',' :: (render x ++ renderItems xs)
  renderEntries : List (String × Json) → List Char
    | [] => ['}']
    | (k, v) :: kvs => ',' :: (quoted k ++ ':' :: (render v ++ renderEntries kvs))

def compact (v : Json) : String := String.ofList v.render

/-- A new line at a level of indentation. -/
def newline (level : Nat) : List Char := '\n' :: List.replicate (2 * level) ' '

/-- Indented text, for a value that stands at `level`. -/
def renderIndented (level : Nat) : Json → List Char
  | .null => ['n', 'u', 'l', 'l']
  | .bool true => ['t', 'r', 'u', 'e']
  | .bool false => ['f', 'a', 'l', 's', 'e']
  | .num n => n.text
  | .str s => quoted s
  | .arr [] => ['[', ']']
  | .arr (x :: xs) =>
    '[' :: (newline (level + 1) ++ renderIndented (level + 1) x ++ itemsIndented level xs)
  | .obj [] => ['{', '}']
  | .obj ((k, v) :: kvs) =>
    '{' :: (newline (level + 1) ++ quoted k ++ ':' :: ' ' :: renderIndented (level + 1) v ++
      entriesIndented level kvs)
where
  itemsIndented (level : Nat) : List Json → List Char
    | [] => newline level ++ [']']
    | x :: xs =>
      ',' :: (newline (level + 1) ++ renderIndented (level + 1) x ++ itemsIndented level xs)
  entriesIndented (level : Nat) : List (String × Json) → List Char
    | [] => newline level ++ ['}']
    | (k, v) :: kvs =>
      ',' :: (newline (level + 1) ++ quoted k ++ ':' :: ' ' :: renderIndented (level + 1) v ++
        entriesIndented level kvs)

def pretty (v : Json) : String := String.ofList (v.renderIndented 0)

end Json

end ManifestForm
