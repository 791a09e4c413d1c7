import ManifestForm.Logging.Setup
import ManifestForm.Number.Binary64

/-! # Options on the command line

An option is a name with a value of some kind behind it. Each kind has a reader, and a value that
its reader refuses makes the command line unusable.
-/

namespace ManifestForm.CommandLine

/-- Any level but silence. -/
def logLevel? (text : String) : Option LogLevel :=
  (LogLevel.ofText? text.toList).filter fun level => level ≠ .off

def logFormat? (text : String) : Option LogFormat := (LogFormat.ofText text).toOption

def color? : String → Option ColorChoice
  | "auto" => some .auto
  | "always" => some .always
  | "never" => some .never
  | _ => none

def path? (text : String) : Option String := if text.isEmpty then none else some text

/-- Offsets and depths have 64 bits. -/
def size? (text : String) : Option Nat :=
  (Decimal.unsigned? 10 text.toList).filter fun n => n < Nat.pow 2 64

inductive ValueKind where
  | logLevel
  | logFormat
  | color
  | path
  | text
  | size
  deriving DecidableEq, Repr

def ValueKind.accepts : ValueKind → String → Bool
  | logLevel, value => (logLevel? value).isSome
  | logFormat, value => (logFormat? value).isSome
  | color, value => (color? value).isSome
  | path, value => (path? value).isSome
  | text, _ => true
  | size, value => (size? value).isSome

/-- The options that may be given, with the kinds of their values. -/
abbrev Signature := List (String × ValueKind)

/-- Options that may stand before the name of a command and behind it. -/
def commonOptions : Signature :=
  [("--log-level", .logLevel), ("--log-format", .logFormat), ("--color", .color),
    ("--kubeconfig", .path)]

/-- The environment variable that stands in for the option of the log level. -/
def levelVariable : String := "KREATE_LOG_LEVEL"

/-- Why a command line is refused. -/
inductive UsageError where
  | unknownOption (name : String)
  | missingValue (option : String)
  | unexpectedValue (option : String)
  | invalidValue (option value : String)
  | repeated (option : String)
  | missingOption (option : String)
  | missingCommand
  | unknownCommand (name : String)
  | missingWord (name : String)
  | unexpectedWord (word : String)
  deriving DecidableEq, Repr

def UsageError.message : UsageError → String
  | unknownOption name => "unknown option " ++ name
  | missingValue option => "no value for " ++ option
  | unexpectedValue option => option ++ " takes no value"
  | invalidValue option value => "invalid value " ++ Text.quoted value ++ " for " ++ option
  | repeated option => option ++ " is given twice"
  | missingOption option => option ++ " is required"
  | missingCommand => "no command is given"
  | unknownCommand name => "unknown command " ++ Text.quoted name
  | missingWord name => name ++ " is required"
  | unexpectedWord word => "unexpected argument " ++ Text.quoted word

/-- What the common options ask for. -/
structure Options where
  log : LogOptions
  kubeconfig : Option String
  deriving DecidableEq, Repr

end ManifestForm.CommandLine
