import DrawPlus.Build.Command

/-!
# The build command on real files

The command is carried out on a picture of the files that its arguments name, below the directory
it is started in. Afterwards the files that changed are written. The commands that a run needs are
written to the standard error, for a caller to carry out.
-/

namespace DrawPlus.BuildCommand

/-- The standard spellings, whatever the text of their file is. -/
def configuration : Configuration :=
  ⟨"/spellings", fun _ => .ok Dialect.standardSource⟩

/-- The places that a request reads or writes, from the working directory on. -/
def placesOf (disk : Disk) (request : BuildRequest) : List Path :=
  let input := disk.fullText (disk.absolute request.input)
  let output := request.output.getD (Builder.defaultOutput input)
  [disk.absolute input, disk.absolute output].flatMap fun path =>
    (List.range path.length).map fun i => path.take (i + 1)

def look (disk : Disk) (path : Path) : IO Disk := do
  let place := (← IO.currentDir) / "/".intercalate path
  if ← place.isDir then return disk.put path .directory
  else if ← place.pathExists then
    return disk.put path (.file (.bytes (← IO.FS.readBinFile place).toList))
  else return disk

def writeBack (before after : Disk) : IO Unit :=
  after.entries.forM fun (path, entry) => do
    if before.entry? path ≠ some entry then
      let place := (← IO.currentDir) / "/".intercalate path
      match entry with
      | .directory => IO.FS.createDirAll place
      | .file content =>
        match content.decoded with
        | .ok text => IO.FS.writeFile place (String.ofList text)
        | .error _ => return

end DrawPlus.BuildCommand

open DrawPlus

def main (words : List String) : IO UInt32 := do
  let bare := (Disk.empty (← IO.currentDir).toString).place BuildCommand.configuration.path
    (.file (.text ""))
  let disk ← match Arguments.understand words with
    | .request request => (BuildCommand.placesOf bare request).foldlM BuildCommand.look bare
    | _ => pure bare
  match BuildCommand.call BuildCommand.configuration disk words with
  | .error e =>
    IO.eprintln e.message
    return 1
  | .ok outcome =>
    IO.print outcome.output
    BuildCommand.writeBack disk outcome.disk
    outcome.commands.forM fun command => IO.eprintln command
    return outcome.exitCode.toUInt32
