import ManifestForm.Command.Basic
import ManifestForm.Json.Decode

/-! # Commands as JSON -/

namespace ManifestForm

namespace CommandArgument

def fields : Record CommandArgument :=
  CommandArgument.mk
    <$> Record.required "name" Decoder.string
    <*> Record.required "label" Decoder.string
    <*> Record.required "description" Decoder.string
    <*> Record.required "required" Decoder.bool

def decode : Decoder CommandArgument := fields.decoder "CommandArg"

def toJson (a : CommandArgument) : Json :=
  .obj [("name", .str a.name), ("label", .str a.label), ("description", .str a.description),
    ("required", .bool a.required)]

end CommandArgument

namespace OptionDefault

/-- Numbers are doubles, integers included. -/
def decodeNumber : Decoder Binary64
  | .num (.float x) => .ok x
  | .num (.int n) =>
    match Binary64.ofInt? n with
    | some x => .ok x
    | none => .error (.invalidType (.num (.int n)) "f64")
  | v => .error (.invalidType v "f64")

def decode : Decoder OptionDefault :=
  Decoder.oneOf "OptionDefault"
    [fun v => (Decoder.bool v).map .flag, fun v => (decodeNumber v).map .number,
      fun v => (Decoder.string v).map .text]

def toJson : OptionDefault → Json
  | .flag b => .bool b
  | .number x => .num (.float x)
  | .text s => .str s

end OptionDefault

namespace CommandOption

def fields : Record CommandOption :=
  CommandOption.mk
    <$> Record.required "flag" Decoder.string
    <*> Record.required "label" Decoder.string
    <*> Record.required "description" Decoder.string
    <*> Record.required "type" Decoder.string
    <*> Record.required "multiple" Decoder.bool
    <*> Record.optional "repeatFlag" Decoder.bool
    <*> Record.optional "default" OptionDefault.decode

def decode : Decoder CommandOption := fields.decoder "CommandOption"

def toJson (o : CommandOption) : Json :=
  .obj ([("flag", .str o.flag), ("label", .str o.label), ("description", .str o.description),
      ("type", .str o.type), ("multiple", .bool o.multiple)] ++
    Json.entry "repeatFlag" (o.repeatFlag.map .bool) ++
    Json.entry "default" (o.default.map OptionDefault.toJson))

end CommandOption

namespace Command

/-- Decodes values that nest at most `levels - 1` deep. -/
def decodeWithin (levels : Nat) : Decoder Command :=
  match levels with
  | 0 => fun v => .error (.invalidType v "struct CommandDetails")
  | levels + 1 =>
    (Command.mk
      <$> Record.required "name" Decoder.string
      <*> Record.optional "args" (Decoder.list CommandArgument.decode)
      <*> Record.optional "options" (Decoder.list CommandOption.decode)
      <*> Record.optional "commands" (Decoder.list (decodeWithin levels))
      <*> Record.optional "cli" (Decoder.list Decoder.string)).decoder "CommandDetails"

def decode : Decoder Command := fun v => decodeWithin (v.height + 1) v

def toJson : Command → Json
  | ⟨name, args, options, commands, cli⟩ =>
    .obj ([("name", .str name)] ++
      Json.entry "args" (args.map fun as => .arr (as.map CommandArgument.toJson)) ++
      Json.entry "options" (options.map fun os => .arr (os.map CommandOption.toJson)) ++
      Json.entry "commands" (groupJson commands) ++ Json.entry "cli" (cli.map Json.strings))
where
  groupJson : Option (List Command) → Option Json
    | none => none
    | some commands => some (.arr (commandsJson commands))
  commandsJson : List Command → List Json
    | [] => []
    | c :: cs => toJson c :: commandsJson cs

end Command

namespace CommandTree

def fields : Record CommandTree :=
  CommandTree.mk <$> Record.required "commands" (Decoder.list Command.decode)

def decode : Decoder CommandTree := fields.decoder "CommandTree"

def toJson (tree : CommandTree) : Json :=
  .obj [("commands", .arr (tree.commands.map Command.toJson))]

end CommandTree

end ManifestForm
