import ManifestForm.Number.Binary64
import ManifestForm.Text.Basic
import ManifestForm.Text.Quoted

/-! # Setting up the log

Levels go from silence to the most verbose. They are written as words, in letters of either case, or
as numbers from 0 to 5. A filter is a list of directives, each a level for the targets whose names
start with some text. Of the directives that apply to a target the one with the longest text wins,
and of several with the same text the last one. A target without a directive is silent.

The log is set up once, with its format and its filter. A filter in the environment takes the place
of the usual one, unless it cannot be read.
-/

namespace ManifestForm

inductive LogLevel where
  | off
  | error
  | warn
  | info
  | debug
  | trace
  deriving DecidableEq, Repr

namespace LogLevel

/-- All levels, each at its number. -/
def all : List LogLevel := [off, error, warn, info, debug, trace]

def name : LogLevel → String
  | off => "off"
  | error => "error"
  | warn => "warn"
  | info => "info"
  | debug => "debug"
  | trace => "trace"

def ofText? (cs : List Char) : Option LogLevel :=
  match (Decimal.unsigned? 10 cs).bind fun n => all[n]? with
  | some level => some level
  | none => all.find? fun level => level.name.toList = cs.map Char.toLower

end LogLevel

/-- A level for all targets, or for those whose names start with a text. -/
structure LogDirective where
  target : Option (List Char)
  level : LogLevel
  deriving DecidableEq, Repr

abbrev LogFilter := List LogDirective

namespace LogDirective

def appliesTo (target : List Char) (d : LogDirective) : Bool :=
  (d.target.getD []).isPrefixOf target

/-- A directive for a text comes before one for all targets, even if the text is empty. -/
def weight (d : LogDirective) : Nat :=
  match d.target with
  | none => 0
  | some text => text.length + 1

/-- The characters that a directive may start with. Letters beyond ASCII are not told apart from
other characters there. -/
def isStart (c : Char) : Bool :=
  c.isAlphanum || c = '-' || c = ':' || c = '_' || 0x80 ≤ c.toNat

/-- A level, a target with everything it logs, or a target and a level with an equals sign between
them. Blanks around it belong to the target or level that they touch, and a target with a level has
none before it. -/
def ofText? (item : List Char) : Option LogDirective :=
  match Text.trimStart item with
  | [] => none
  | c :: _ =>
    if !isStart c then none
    else
      let target := item.takeWhile (· ≠ '=')
      match item.dropWhile (· ≠ '=') with
      | [] =>
        match LogLevel.ofText? item with
        | some level => some ⟨none, level⟩
        | none => some ⟨some item, .trace⟩
      | _ :: level =>
        if target.head?.all Text.isBlank then none
        else if level.isEmpty then some ⟨some target, .trace⟩
        else (LogLevel.ofText? level).map fun level => ⟨some target, level⟩

end LogDirective

namespace LogFilter

/-- Directives between commas; empty ones are skipped. -/
def ofText? (text : List Char) : Option LogFilter :=
  ((Text.splitOn (· = ',') text).filter fun item => !item.isEmpty).mapM LogDirective.ofText?

/-- The directive that decides about a target, given the best one so far. -/
def deciding (target : List Char) : Option LogDirective → LogFilter → Option LogDirective
  | best, [] => best
  | best, d :: ds =>
    let outdone := best.any fun b => d.weight < b.weight
    deciding target (if d.appliesTo target && !outdone then some d else best) ds

/-- The most verbose level that a target logs. -/
def levelOf (target : List Char) (f : LogFilter) : LogLevel :=
  match deciding target none f with
  | some d => d.level
  | none => .off

/-- The targets of the program itself. -/
def ownTargets : List String :=
  ["kreate", "kreate_k8s", "kreate_yaml", "kreate_spec", "kreate_cli"]

/-- Warnings from everything else, and the given level for the program itself. -/
def usual (level : LogLevel) : LogFilter :=
  ⟨none, .warn⟩ :: ownTargets.map fun target => ⟨some target.toList, level⟩

end LogFilter

inductive LogFormat where
  | json
  | prettyCompact
  | pretty
  deriving DecidableEq, Repr

/-- A text that names no format, in small letters. -/
structure UnknownLogFormat where
  text : String
  deriving DecidableEq, Repr

def UnknownLogFormat.message (e : UnknownLogFormat) : String :=
  "unknown log format " ++ Text.quoted e.text

def LogFormat.ofText (text : String) : Except UnknownLogFormat LogFormat :=
  let lower := String.ofList (text.toList.map Char.toLower)
  match lower with
  | "json" => .ok .json
  | "pretty-compact" | "compact" => .ok .prettyCompact
  | "pretty" => .ok .pretty
  | _ => .error ⟨lower⟩

inductive ColorChoice where
  | always
  | auto
  | never
  deriving DecidableEq, Repr

/-- Whether to use colors, on a terminal or elsewhere. -/
def ColorChoice.isOn (terminal : Bool) : ColorChoice → Bool
  | .always => true
  | .auto => terminal
  | .never => false

structure LogOptions where
  level : Option LogLevel
  format : Option LogFormat
  color : ColorChoice
  deriving DecidableEq, Repr

/-- What a process logs, and how. -/
structure Log where
  format : LogFormat
  color : Bool
  filter : LogFilter
  deriving DecidableEq, Repr

namespace Log

/-- The filter, and whether the one in the environment had to be passed over. -/
def chooseFilter (level : LogLevel) (environment : Option String) : LogFilter × Bool :=
  match environment with
  | none => (.usual level, false)
  | some text =>
    match LogFilter.ofText? text.toList with
    | some filter => (filter, false)
    | none => (.usual level, true)

inductive SetupError where
  | alreadySetUp
  deriving DecidableEq, Repr

def SetupError.message : SetupError → String
  | alreadySetUp => "a global default trace dispatcher has already been set"

/-- The log that the options describe. -/
def ofOptions (options : LogOptions) (environment : Option String) (terminal : Bool) : Log :=
  ⟨options.format.getD .prettyCompact, options.color.isOn terminal,
    (chooseFilter (options.level.getD .warn) environment).1⟩

/-- Sets up the log of a process that may have one. -/
def setUp (options : LogOptions) (environment : Option String) (terminal : Bool) :
    Option Log → Except SetupError Log
  | some _ => .error .alreadySetUp
  | none => .ok (ofOptions options environment terminal)

end Log

end ManifestForm
