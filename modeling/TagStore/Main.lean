import TagStore.Command.Line
import TagStore.Database.Run

/-!
# The program

The program takes a picture of the files and directories that a command may look at, runs the
command on the picture, prints what it has to say, and makes the disk agree with the picture again.
A link is made as another name of the stored file, and one that is found counts as the file it leads
to.
-/

namespace TagStore

/-- What is said of a command line that leads to no command. -/
def Command.Halt.message : Command.Halt → String
  | help => "commands: " ++ ", ".intercalate Command.names
  | version => "version 0.1.0"
  | missingCommand => "a command is needed: " ++ ", ".intercalate Command.names
  | similarCommand => "unknown command, similar to one of: " ++ ", ".intercalate Command.names
  | unknownTopic => "help is available for: " ++ ", ".intercalate Command.names
  | missingArgument => "an argument is missing"
  | unknownArgument => "unknown command or argument"
  | invalidValue reason => "invalid value: " ++ reason
  | repeatedFlag => "a flag may be given only once"

/-- Whether a command line that leads to no command has been obeyed with the message. -/
def Command.Halt.isObeyed (halt : Command.Halt) : Bool := halt = .help || halt = .version

namespace Picture

/-- The place of a written path if every name in it is a directory or the last one. -/
def placeOf (disk : Disk) (path : String) : Place :=
  (Location.namesOfEntry path).foldl
    (fun place name =>
      if name = "." then place else if name = ".." then place.dropLast else place ++ [name])
    (if Location.isAbsolute path then [] else disk.home)

/-- The written path of a place. -/
def pathOf (place : Place) : String := "/" ++ "/".intercalate place

/-- The disk with a node at a place and directories above it. -/
def add (disk : Disk) (place : Place) (node : Node) : Disk :=
  let above := ((List.range place.length).drop 1).map fun length => place.take length
  let missing := above.filter fun place => !disk.nodes.contains place
  (missing.foldl (fun disk place => disk.put place .directory) disk).put place node

/-- Add what is at a path to a picture, with everything in it. -/
partial def take (path : String) (disk : Disk) : IO Disk := do
  let place := placeOf disk path
  match ← (IO.FS.realPath (pathOf place)).toBaseIO with
  | .error _ => pure disk
  | .ok real =>
    if ← real.isDir then
      let start := if place = [] then disk else add disk place .directory
      (← real.readDir).foldlM
        (fun disk entry => take (pathOf (place ++ [entry.fileName])) disk) start
    else if ← real.pathExists then pure (add disk place (.file (← IO.FS.readBinFile real)))
    else pure disk

/-- The sources that a command may read: those of the catalog and that of a new file. -/
def sources (disk : Disk) (invocation : Command.Invocation) : List String :=
  let listed := match Database.loadCatalog disk invocation.catalogPath with
    | .ok catalog => catalog.files.entries.map (·.2.source)
    | .error _ => []
  let all := match invocation.command with
    | .add _ source _ => source :: listed
    | _ => listed
  all.filterMap fun source => (Source.localPath source).toOption

/-- The picture that a command needs. -/
def forCommand (home : Place) (invocation : Command.Invocation) : IO Disk := do
  let start := if home = [] then {} else add {} home .directory
  let start := { start with home }
  let disk ← take (Database.outputOf invocation.catalogPath) start
  (sources disk invocation).foldlM (fun disk path => take path disk) disk

/-- Make the disk agree with a picture that came from another. -/
def develop (before after : Disk) : IO Unit := do
  for (place, _) in before.nodes.entries.reverse do
    if !after.nodes.contains place then IO.FS.removeFile (pathOf place)
  for (place, node) in after.nodes.entries do
    if before.nodes.get? place ≠ some node then
      match node with
      | .directory => IO.FS.createDir (pathOf place)
      | .file content => IO.FS.writeBinFile (pathOf place) content
      | .link _ => pure ()
  for (place, node) in after.nodes.entries do
    if before.nodes.get? place ≠ some node then
      if let .link target := node then
        if before.nodes.contains place then IO.FS.removeFile (pathOf place)
        IO.FS.hardLink target (pathOf place)

/-- The time in milliseconds, as a new file is stamped with it. -/
def clock : IO Nat := do
  let (_, path) ← IO.FS.createTempFile
  let time := (← path.metadata).modified
  IO.FS.removeFile path
  pure (time.sec.toNat * 1000 + time.nsec.toNat / 1000000)

end Picture

/-- Run the command of a command line and answer the exit code. -/
def runCommandLine (arguments : List String) : IO UInt32 := do
  match Command.Invocation.ofArguments (← IO.getEnv "IMAGES_CONFIG_FILE") arguments with
  | .error halt => do
    if halt.isObeyed then
      IO.println halt.message
      pure 0
    else
      IO.eprintln ("error: " ++ halt.message)
      pure 1
  | .ok invocation => do
    let home := Location.namesOfEntry (← IO.currentDir).toString
    let disk ← Picture.forCommand home invocation
    let report := invocation.command.run invocation.catalogPath (← Picture.clock) disk
    IO.print report.printed
    Picture.develop disk report.disk
    match report.failure with
    | none => pure 0
    | some failure => do
      IO.eprintln ("Error: " ++ failure.message)
      pure 1

end TagStore

/-- The program. -/
def main (arguments : List String) : IO UInt32 := TagStore.runCommandLine arguments
