import ManifestForm.Number.Binary64

/-! # Creation commands

The commands that a form can build, in groups. A command without a list of subcommands ends a path,
even where more names follow; one with an empty list is an empty group.
-/

namespace ManifestForm

structure CommandArgument where
  name : String
  label : String
  description : String
  required : Bool
  deriving DecidableEq, Repr

/-- The value of an option that is left alone. -/
inductive OptionDefault where
  | flag (value : Bool)
  | number (value : Binary64)
  | text (value : String)
  deriving DecidableEq, Repr

structure CommandOption where
  flag : String
  label : String
  description : String
  type : String
  multiple : Bool
  /-- Whether the flag is written again before each of several values. -/
  repeatFlag : Option Bool
  default : Option OptionDefault
  deriving DecidableEq, Repr

structure Command where
  name : String
  args : Option (List CommandArgument)
  options : Option (List CommandOption)
  commands : Option (List Command)
  /-- The words of the command line before the arguments. -/
  cli : Option (List String)
  deriving Repr

inductive CommandError where
  | noParent (name : String)
  | notFound (path : List String)
  deriving DecidableEq, Repr

def CommandError.message : CommandError → String
  | noParent name => s!"parent command {name} not found"
  | notFound _ => "command not found"

structure CommandTree where
  commands : List Command
  deriving Repr

namespace CommandTree

/-- The names of the commands at the top, or of the subcommands of a parent. An empty name is no
parent, and a command that is no group has no subcommands. -/
def names (parent : Option String) (tree : CommandTree) : Except CommandError (List String) :=
  match parent.filter fun name => !name.isEmpty with
  | none => .ok (tree.commands.map (·.name))
  | some name =>
    match tree.commands.find? (·.name = name) with
    | none => .error (.noParent name)
    | some command => .ok ((command.commands.getD []).map (·.name))

/-- The first command on the path that is no group, searched from these candidates. -/
def findFrom : List Command → List String → Option Command
  | _, [] => none
  | candidates, name :: path =>
    match candidates.find? (·.name = name) with
    | none => none
    | some command =>
      match command.commands with
      | none => some command
      | some children => findFrom children path

/-- The command at a path. A group is no command. -/
def details (path : List String) (tree : CommandTree) : Except CommandError Command :=
  match findFrom tree.commands path with
  | none => .error (.notFound path)
  | some command => .ok command

end CommandTree

end ManifestForm
