import Refill.Command.Run

/-!
# The command

Reads what a run may need into a file system value, runs, and puts into effect what has
changed.
-/

namespace Refill.Program

def absolutePath (location : Location) : String :=
  "/" ++ "/".intercalate (location.map String.ofList)

/-- The file system with the directory and the Markdown files inside. -/
partial def addDirectory (files : FileSystem) (path : Path) : IO FileSystem := do
  let mut files := (files.createDirectory path).toOption.getD files
  let place := (← IO.currentDir) / String.ofList path
  for entry in ← place.readDir do
    let inner := path.join entry.fileName.toList
    if ← entry.path.isDir then
      files ← addDirectory files inner
    else if Name.isMarkdown entry.fileName.toList then
      files := (files.write inner (← IO.FS.readBinFile entry.path)).toOption.getD files
  return files

def addPath (files : FileSystem) (path : Path) : IO FileSystem := do
  let place := (← IO.currentDir) / String.ofList path
  if path.isEmpty || !(← place.pathExists) then return files
  if ← place.isDir then addDirectory files path
  else
    let files := (files.createParent path).toOption.getD files
    return (files.write path (← IO.FS.readBinFile place)).toOption.getD files

def emptyFiles : IO FileSystem := do
  let here := (← IO.currentDir).toString.toList
  let files : FileSystem := { root := .empty, workingDirectory := [] }
  let files := (files.createDirectory here).toOption.getD files
  return { files with workingDirectory := (Path.pieces here).filter (!·.isEmpty) }

def readEnvironment (path : Path) : IO PathExpansion.Environment := do
  let pairs ← ("HOME".toList :: PathExpansion.mentioned path).filterMapM fun name => do
    return (← IO.getEnv (String.ofList name)).map fun value => (name, value.toList)
  return { «variables» := pairs, accountHome := none }

partial def readToEnd (stream : IO.FS.Stream) (content : ByteArray) : IO ByteArray := do
  let chunk ← stream.read 65536
  if chunk.isEmpty then return content else readToEnd stream (content ++ chunk)

/-- What a run with these options may need. -/
def readSurroundings (options : Command.Options) : IO Command.Surroundings := do
  let environment ← readEnvironment (options.settingsPath.getD [])
  let files ← emptyFiles
  let files ← addPath files (Command.settingsPath environment options.settingsPath)
  let files ← options.paths.foldlM addPath files
  let input ← if options.paths.isEmpty then readToEnd (← IO.getStdin) .empty else pure .empty
  return { files, environment, input }

def showFailure (failure : Command.Failure) : IO Unit := do
  let stream ← IO.getStderr
  match failure with
  | .usage error => stream.putStrLn ("error: " ++ error.message)
  | failure => stream.putStrLn ("Error: " ++ failure.message)

end Refill.Program

open Refill Refill.Program

def main (arguments : List String) : IO UInt32 := do
  let arguments := arguments.map String.toList
  let options := (Command.Options.ofArguments arguments).toOption
  let surroundings ← match options with
    | some options => readSurroundings options
    | none => pure { files := ← emptyFiles, environment := ⟨[], none⟩, input := .empty }
  let report := Command.execute surroundings arguments
  (← IO.getStdout).putStr (String.ofList report.output)
  for (location, content) in surroundings.files.root.changes report.files.root do
    IO.FS.writeBinFile (absolutePath location) content
  match report.verdict with
  | .ok _ => pure ()
  | .error failure => showFailure failure
  return report.exitCode.toUInt32
