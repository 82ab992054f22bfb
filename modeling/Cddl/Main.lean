import Cddl.Command
/-!
# The program

Reads what the command line names, runs the command on it, and carries out what comes of that.
-/
namespace Cddl.Main

/-- The fault that an error of the system stands for. -/
def faultOf : IO.Error → FileFault
  | .inappropriateType .. => .notDirectory
  | .permissionDenied .. => .denied
  | _ => .noEntry

/-- What a path leads to, with all that is in it.  In a directory links are not followed, and nothing but its files is
read. -/
partial def load (path : Text) (listed : Bool) : IO FileEntry := do
  let place := (← IO.currentDir) / path.toString
  match (← if listed then place.symlinkMetadata else place.metadata).type with
  | .dir =>
    let names := (← place.readDir).toList.map fun e => Text.ofString e.fileName
    return .directory (← names.mapM fun name => return (name, ← load (path ++ "/" ++ name) true))
  | .file =>
    try return .file (← IO.FS.readBinFile place).toList
    catch
      | .permissionDenied .. => return .locked
      | e => throw e
  | _ =>
    if listed then return .special []
    else return .special (← IO.FS.readBinFile place).toList

def lookUp (path : Text) : IO (Except FileFault FileEntry) := do
  if path = [] then return .error .noEntry
  try return .ok (← load path false)
  catch e => return .error (faultOf e)

def lookUpAll (paths : List Text) : IO (List (Text × Except FileFault FileEntry)) :=
  paths.mapM fun path => return (path, ← lookUp path)

/-- What stands in the way of writing a file. -/
def writeFault (path : Text) : IO (Option FileFault) := do
  let place := (← IO.currentDir) / path.toString
  if path = [] then return some .noEntry
  else if ← place.isDir then return some .isDirectory
  else if path.getLast? = some '/' then return some .isDirectory
  else match place.parent with
    | none => return none
    | some directory =>
      if ← directory.isDir then return none
      else if ← directory.pathExists then return some .notDirectory
      else return some .noEntry

def answers {α : Type} (found : List (Text × α)) (other : α) (path : Text) : α := (found.lookup path).getD other

/-- What a command may ask of the file system, looked up beforehand: what its paths lead to, and then the files that are
listed in their stead. -/
def filesFor (c : Command) : IO Files := do
  let named ← lookUpAll c.sources
  let refused ← c.target?.toList.mapM fun path => return (path, ← writeFault path)
  let cwd := Text.ofString (← IO.currentDir).toString
  let fs : Files := ⟨answers named (.error .noEntry), answers refused (some .noEntry), cwd⟩
  let listed := match fs.collect c.sources with
    | .ok files => files.filter (· ∉ c.sources)
    | .error _ => []
  return { fs with look := answers (named ++ (← lookUpAll listed)) (.error .noEntry) }

def noFiles : Files := (FileEntry.directory []).files

def run (args : List Text) : IO Outcome := do
  match Command.ofArguments args with
  | .ok c => return Command.runArguments (← filesFor c) args
  | .error _ => return Command.runArguments noFiles args

end Cddl.Main

def main (args : List String) : IO UInt32 := do
  let outcome ← Cddl.Main.run (args.map Cddl.Text.ofString)
  if let some (path, content) := outcome.written then
    IO.FS.writeFile path.toString content.toString
  IO.eprint outcome.progress.toString
  IO.print outcome.out.toString
  return if outcome.failed then 1 else 0
