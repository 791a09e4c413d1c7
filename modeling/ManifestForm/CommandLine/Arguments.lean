import ManifestForm.CommandLine.Options
import ManifestForm.Form.Service
import ManifestForm.Text.Basic

/-! # Reading a command line

A command line has two levels: options up to the first word, which names a command, and whatever
belongs to that command, where options and words may be mixed. A level is read item by item, and the
first item that asks for help or the version or is at fault settles the matter. An option may be
given once on each level, and the inner level wins.
-/

namespace ManifestForm.CommandLine

/-- Why a command line leads to no task. -/
inductive Stop where
  | help
  | version
  | usage (error : UsageError)
  deriving DecidableEq, Repr

/-- What a command does, with all that it needs. -/
inductive Task where
  | serve
  | pathAt (file : String) (offset : Nat)
  | spec (file : String) (path : List String) (depth : Nat)
  | commands (parent : Option String)
  | commandDetails (path : List String)
  | create (file : String)
  deriving DecidableEq, Repr

/-- What may stand on a level. -/
structure Grammar where
  options : Signature
  /-- Whether the version can be asked for. -/
  hasVersion : Bool
  /-- Whether a word ends the level. -/
  endsAtWord : Bool

section Items

inductive Item where
  | option (name value : String)
  | word (text : String)
  | stop (reason : Stop)

/-- What an argument is, before the one behind it is seen. -/
inductive Shape where
  | item (item : Item)
  /-- An option whose value is the next argument. -/
  | awaiting (option : String)
  | word
  /-- From here on there are only words. -/
  | escape

def Shape.fault (error : UsageError) : Shape := .item (.stop (.usage error))

/-- Whether an argument is no word. A lone dash is one. -/
def isDashed (arg : String) : Bool :=
  match arg.toList with
  | '-' :: _ :: _ => true
  | _ => false

/-- A long option, which may have a value behind an equals sign. -/
def longShape (g : Grammar) (arg : String) : Shape :=
  let name := String.ofList (arg.toList.takeWhile (· ≠ '='))
  let isFlag := name = "--help" || (g.hasVersion && name = "--version")
  match (g.options.lookup name).isSome, arg.toList.dropWhile (· ≠ '=') with
  | true, [] => .awaiting name
  | true, _ :: value => .item (.option name (String.ofList value))
  | false, rest =>
    if !isFlag then .fault (.unknownOption name)
    else if !rest.isEmpty then .fault (.unexpectedValue name)
    else .item (.stop (if name = "--help" then .help else .version))

/-- The first letter of a cluster of short options decides. -/
def shortShape (g : Grammar) (letter : Char) : Shape :=
  if letter = 'h' then .item (.stop .help)
  else if g.hasVersion && letter = 'V' then .item (.stop .version)
  else .fault (.unknownOption (String.ofList ['-', letter]))

def shape (g : Grammar) (arg : String) : Shape :=
  match arg.toList with
  | ['-', '-'] => .escape
  | '-' :: '-' :: _ => longShape g arg
  | '-' :: letter :: _ => shortShape g letter
  | _ => .word

/-- The items of a level and the arguments behind it. -/
def scan (g : Grammar) : List String → List Item × List String
  | [] => ([], [])
  | arg :: rest =>
    match shape g arg with
    | .escape => (rest.map .word, [])
    | .item item => let (items, rest) := scan g rest; (item :: items, rest)
    | .word =>
      if g.endsAtWord then ([], arg :: rest)
      else let (items, rest) := scan g rest; (.word arg :: items, rest)
    | .awaiting name =>
      match rest with
      | [] => ([.stop (.usage (.missingValue name))], [])
      | value :: rest =>
        if isDashed value then ([.stop (.usage (.missingValue name))], [])
        else let (items, rest) := scan g rest; (.option name value :: items, rest)

end Items

section Levels

/-- The options and words of a level, all of them acceptable. -/
structure Level where
  options : List (String × String)
  words : List String

namespace Level

def empty : Level := ⟨[], []⟩

/-- Takes in items, up to the first that settles the matter. -/
def collect (signature : Signature) : Level → List Item → Except Stop Level
  | l, [] => .ok l
  | _, .stop reason :: _ => .error reason
  | l, .word text :: items => collect signature { l with words := l.words ++ [text] } items
  | l, .option name value :: items =>
    if (l.options.lookup name).isSome then .error (.usage (.repeated name))
    else if (signature.lookup name).any fun kind => kind.accepts value then
      collect signature { l with options := l.options ++ [(name, value)] } items
    else .error (.usage (.invalidValue name value))

/-- The value of an option of a level. -/
def value? (l : Level) (name : String) (read : String → Option α) : Option α :=
  (l.options.lookup name).bind read

end Level

end Levels

section Commands

inductive Verb where
  | serve
  | pathAt
  | spec
  | commands
  | commandDetails
  | create
  deriving DecidableEq, Repr

namespace Verb

def all : List Verb := [serve, pathAt, spec, commands, commandDetails, create]

def name : Verb → String
  | serve => "serve"
  | pathAt => "path-at"
  | spec => "spec"
  | commands => "commands"
  | commandDetails => "command-details"
  | create => "create"

def ofName? (name : String) : Option Verb := all.find? (·.name = name)

/-- The options of a command besides the common ones. -/
def options : Verb → Signature
  | pathAt => [("--offset", .size)]
  | spec => [("--path", .text), ("--max-depth", .size)]
  | _ => []

def grammar (verb : Verb) : Grammar := ⟨commonOptions ++ verb.options, false, false⟩

/-- The one file that a command works on. -/
def file (l : Level) : Except UsageError String :=
  match l.words with
  | [] => .error (.missingWord "FILE")
  | [path] => if path.isEmpty then .error (.invalidValue "FILE" path) else .ok path
  | _ :: word :: _ => .error (.unexpectedWord word)

/-- The names between the dots of a path. -/
def segments (path : String) : List String :=
  ((Text.splitOn (· = '.') path.toList).filter fun name => !name.isEmpty).map String.ofList

def task (verb : Verb) (l : Level) : Except UsageError Task :=
  match verb with
  | serve =>
    match l.words with
    | [] => .ok .serve
    | word :: _ => .error (.unexpectedWord word)
  | pathAt => do
    let path ← file l
    match l.value? "--offset" size? with
    | none => .error (.missingOption "--offset")
    | some offset => .ok (.pathAt path offset)
  | spec => do
    let path ← file l
    return .spec path (((l.value? "--path" some).map segments).getD [])
      ((l.value? "--max-depth" size?).getD Form.maxDepth)
  | commands =>
    match l.words with
    | [] => .ok (.commands none)
    | [parent] => .ok (.commands (some parent))
    | _ :: word :: _ => .error (.unexpectedWord word)
  | commandDetails =>
    if l.words.isEmpty then .error (.missingWord "PATH") else .ok (.commandDetails l.words)
  | create => (file l).map .create

end Verb

end Commands

section BothLevels

/-- The level before the name of a command. -/
def outerGrammar : Grammar := ⟨commonOptions, true, true⟩

/-- Whether help can be had on what the words name. -/
def helpStop : List String → Stop
  | [] => .help
  | [name] =>
    if name = "help" || (Verb.ofName? name).isSome then .help else .usage (.unknownCommand name)
  | _ :: name :: _ => .usage (.unknownCommand name)

/-- The log level that the environment names. It has to be a level wherever the command line could
name one and does not. -/
def environmentLevel (named : Option String) (outer inner : Level) :
    Except UsageError (Option LogLevel) :=
  let isNamed (l : Level) : Bool := (l.options.lookup "--log-level").isSome
  match named with
  | none => .ok none
  | some text =>
    if isNamed outer && isNamed inner then .ok none
    else
      match logLevel? text with
      | none => .error (.invalidValue levelVariable text)
      | some level => .ok (some level)

/-- The common options of both levels. -/
def Options.ofLevels (environment : Option LogLevel) (outer inner : Level) : Options :=
  let value? {α : Type} (name : String) (read : String → Option α) : Option α :=
    inner.value? name read <|> outer.value? name read
  { log :=
      { level := value? "--log-level" logLevel? <|> environment
        format := value? "--log-format" logFormat?
        color := (value? "--color" color?).getD .auto }
    kubeconfig := value? "--kubeconfig" path? }

/-- A command line as options and a task, given the log level in the environment. -/
def read (named : Option String) (args : List String) : Except Stop (Options × Task) := do
  let (items, rest) := scan outerGrammar args
  let outer ← Level.empty.collect outerGrammar.options items
  match outer.words, rest with
  | word :: _, _ => .error (.usage (.unexpectedWord word))
  | [], [] => .error (.usage .missingCommand)
  | [], name :: rest =>
    if name = "help" then .error (helpStop rest)
    else
      match Verb.ofName? name with
      | none => .error (.usage (.unknownCommand name))
      | some verb => do
        let inner ← Level.empty.collect verb.grammar.options (scan verb.grammar rest).1
        let task ← (verb.task inner).mapError .usage
        let environment ← (environmentLevel named outer inner).mapError .usage
        return (.ofLevels environment outer inner, task)

end BothLevels

end ManifestForm.CommandLine
