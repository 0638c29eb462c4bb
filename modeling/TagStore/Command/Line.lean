import TagStore.Command.Basic
import TagStore.Text.Similarity

/-!
# Command lines

A command line has the name of a command followed by its arguments.  An argument that begins with a
dash has to be a known flag, unless it stands after `--` or is a dash alone.  The path of the
catalog may be given before or after the name of the command.  A flag that asks for help or for the
version is obeyed as soon as it is met.
-/

namespace TagStore
namespace Command

/-- Why a command line leads to no command. -/
inductive Halt where
  /-- There is no command. -/
  | missingCommand
  /-- The name of the command is not known but similar to one that is. -/
  | similarCommand
  /-- An argument that the command needs is missing. -/
  | missingArgument
  /-- A flag or command is not known, or there is an argument too many. -/
  | unknownArgument
  /-- An argument is not a tag edit, for a reason that is given. -/
  | invalidValue (reason : String)
  /-- A flag is given twice. -/
  | repeatedFlag
  /-- Help is asked for. -/
  | help
  /-- Help is asked for on something that is no command. -/
  | unknownTopic
  /-- The version is asked for. -/
  | version
  deriving DecidableEq, Repr

/-- The names of commands. -/
inductive Form where
  /-- Add a file. -/
  | add
  /-- Remove files. -/
  | remove
  /-- Edit tags. -/
  | tag
  /-- List files. -/
  | search
  /-- Bring the output directory in line. -/
  | sync
  deriving DecidableEq, Repr

namespace Form

/-- All forms of commands. -/
def all : List Form := [add, remove, tag, search, sync]

/-- The name of a form. -/
def name : Form → String
  | add => "add"
  | remove => "remove"
  | tag => "tag"
  | search => "search"
  | sync => "sync"

/-- The form with a given name. -/
def ofName? (name : String) : Option Form := all.find? (·.name = name)

end Form

/-- The name under which help is asked for. -/
def helpName : String := "help"

/-- The names that may stand where that of a command is called for. -/
def names : List String := Form.all.map Form.name ++ [helpName]

/-- What comes of a name that is not that of a command. -/
def unknownName (name : String) : Halt :=
  if names.any fun known => Text.isSimilar name.toList known.toList then .similarCommand
  else .unknownArgument

/-- What comes of asking for help on a command, or on all of them. -/
def helpOn : List String → Halt
  | [] => .help
  | [topic] => if names.contains topic then .help else .unknownTopic
  | _ => .unknownTopic

/-- A flag. -/
inductive Flag where
  /-- It gives the path of the catalog or calls for it. -/
  | catalog (path : Option String)
  /-- It asks for JSON. -/
  | json
  /-- It asks for a dry run. -/
  | dry
  /-- It asks for help. -/
  | help
  /-- It asks for the version. -/
  | version

/-- The flag with a long name and perhaps a value, which only the path of the catalog has a use
for. -/
def Flag.ofName? (name : String) (value : Option String) : Option Flag :=
  match name with
  | "config-file" => some (.catalog value)
  | "json" => some .json
  | "dry" => some .dry
  | "help" => some .help
  | "version" => some .version
  | _ => none

/-- How an argument is to be taken. -/
inductive Role where
  /-- It ends the flags. -/
  | endOfFlags
  /-- It is a flag. -/
  | flag (flag : Flag)
  /-- It is a flag that does not exist. -/
  | unknown
  /-- It is no flag. -/
  | plain

/-- Whether an argument has the form of a flag. -/
def isFlag (argument : String) : Bool := argument.toList.head? = some '-' && argument ≠ "-"

/-- Read a flag with a long name.  Any number of dashes may stand before the name.  The value
follows an equals sign, of which there may be several. -/
def longFlag? (argument : String) : Option Flag :=
  let text := String.ofList (argument.toList.dropWhile (· = '-'))
  match Text.cut '=' text with
  | none => Flag.ofName? text none
  | some (name, value) =>
    Flag.ofName? name (some (String.ofList (value.toList.dropWhile (· = '='))))

/-- Read a flag with a short name; what follows the name is never looked at. -/
def shortFlag? (argument : String) : Option Flag :=
  match argument.toList with
  | '-' :: 'h' :: _ => some .help
  | '-' :: 'V' :: _ => some .version
  | _ => none

/-- How an argument is to be taken before the end of the flags. -/
def role (argument : String) : Role :=
  if argument = "--" then .endOfFlags
  else if !isFlag argument then .plain
  else
    let flag :=
      if "--".toList.isPrefixOf argument.toList then longFlag? argument else shortFlag? argument
    flag.elim .unknown Role.flag

/-- The flags and other arguments of a command, as they were given. -/
structure Given where
  /-- How often the changes were asked for as JSON. -/
  json : Nat := 0
  /-- How often a dry run was asked for. -/
  dry : Nat := 0
  /-- How often the path of the catalog was announced. -/
  catalogs : Nat := 0
  /-- The path of the catalog given last. -/
  catalogPath : Option String := none
  /-- Whether the path of the catalog may come next. -/
  awaits : Bool := false
  /-- The other arguments, the last one first. -/
  arguments : List String := []

namespace Given

/-- Note a flag where those of editing are known or not (`edits`). -/
def addFlag (edits : Bool) (given : Given) : Flag → Except Halt Given
  | .catalog none => .ok { given with catalogs := given.catalogs + 1, awaits := true }
  | .catalog (some path) =>
    .ok { given with catalogs := given.catalogs + 1, catalogPath := some path, awaits := false }
  | .json =>
    if edits then .ok { given with json := given.json + 1, awaits := false }
    else .error .unknownArgument
  | .dry =>
    if edits then .ok { given with dry := given.dry + 1, awaits := false }
    else .error .unknownArgument
  | .help => .error .help
  | .version => .error .version

/-- Note the path of the catalog. -/
def addPath (given : Given) (path : String) : Given :=
  { given with catalogPath := some path, awaits := false }

/-- Note an argument that is no flag where there may be some or not (`takes`). -/
def addArgument (takes : Bool) (given : Given) (argument : String) : Except Halt Given :=
  if takes then .ok { given with arguments := argument :: given.arguments }
  else .error .unknownArgument

/-- Whether a flag is given twice. -/
def hasRepeatedFlag (given : Given) : Bool :=
  [given.json, given.dry, given.catalogs].any (1 < ·)

end Given

/-- Sort the arguments of a command that may have flags of editing (`edits`) and other arguments
(`takes`); `literal` after the end of the flags. -/
def collect (edits takes : Bool) : (literal : Bool) → Given → List String → Except Halt Given
  | _, given, [] => .ok given
  | true, given, argument :: rest => do
    collect edits takes true (← given.addArgument takes argument) rest
  | false, given, argument :: rest =>
    if given.awaits && !isFlag argument then collect edits takes false (given.addPath argument) rest
    else
      match role argument with
      | .endOfFlags => collect edits takes true given rest
      | .flag flag => do collect edits takes false (← given.addFlag edits flag) rest
      | .unknown => .error .unknownArgument
      | .plain => do collect edits takes false (← given.addArgument takes argument) rest

/-- Read each of some arguments as a tag edit. -/
def editsOf (arguments : List String) : Except Halt (List Tag.Edit) :=
  (arguments.mapM Tag.Edit.ofText).mapError Halt.invalidValue

/-- Whether a command has the arguments that it needs. -/
def Form.suffices (form : Form) (arguments : List String) : Bool :=
  match form with
  | .add | .tag => 2 ≤ arguments.length
  | .remove | .search => 1 ≤ arguments.length
  | .sync => true

/-- The command of a form with some arguments. -/
def Form.command (form : Form) (mode : EditMode) (arguments : List String) :
    Except Halt Command :=
  match form, arguments with
  | .add, source :: edits => (editsOf edits).map (Command.add mode source)
  | .tag, query :: edits => (editsOf edits).map (Command.tag mode query)
  | .remove, query => .ok (.remove mode query)
  | .search, query => .ok (.search query)
  | .sync, [] => .ok (.sync mode)
  | _, _ => .error .missingArgument

/-- A command and where the catalog is. -/
structure Invocation where
  /-- The path of the catalog. -/
  catalogPath : String
  /-- The command. -/
  command : Command
  deriving DecidableEq

namespace Invocation

/-- The path of the catalog where none is given. -/
def defaultCatalogPath : String := "./images.config.json"

/-- Read the arguments of a command; `outer` has the flags given before its name.  The path of the
catalog is that of the command, or else the outer one, or else the preset one. -/
def ofForm (form : Form) (outer : Given) (preset : Option String) (arguments : List String) :
    Except Halt Invocation := do
  let given ← collect (form ≠ .search) (form ≠ .sync) false {} arguments
  let plain := given.arguments.reverse
  if !form.suffices plain then throw .missingArgument
  let command ← form.command ⟨given.json ≠ 0, given.dry ≠ 0⟩ plain
  if given.hasRepeatedFlag || outer.hasRepeatedFlag then throw .repeatedFlag
  let path := if given.catalogs = 0 then outer.catalogPath else given.catalogPath
  pure ⟨(path.or preset).getD defaultCatalogPath, command⟩

/-- Read a command line after the flags that stand before the name of the command. -/
def ofArgumentsAfter (preset : Option String) : (outer : Given) → List String →
    Except Halt Invocation
  | _, [] => .error .missingCommand
  | outer, argument :: rest =>
    if outer.awaits && !isFlag argument then ofArgumentsAfter preset (outer.addPath argument) rest
    else
      match role argument with
      | .endOfFlags => .error (rest.head?.elim .missingCommand unknownName)
      | .flag flag => do ofArgumentsAfter preset (← outer.addFlag false flag) rest
      | .unknown => .error .unknownArgument
      | .plain =>
        match Form.ofName? argument with
        | some form => ofForm form outer preset rest
        | none => .error (if argument = helpName then helpOn rest else unknownName argument)

/-- Read a command line.  The path of the catalog may be preset by the environment. -/
def ofArguments (preset : Option String) (arguments : List String) : Except Halt Invocation :=
  ofArgumentsAfter preset {} arguments

end Invocation
end Command
end TagStore
