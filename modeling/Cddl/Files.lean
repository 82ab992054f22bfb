import Cddl.Files.Path
/-!
# Files as the commands see them

A directory tree is a value, and the commands are functions of it.  The faults that the system reports have its texts,
with the operation and the path as they were passed on.
-/
namespace Cddl

/-- What a path can lead to.  A directory lists what is in it in any order. -/
inductive FileEntry where
  | file (content : List UInt8)
  | directory (entries : List (Text × FileEntry))
  /-- A file that may not be read. -/
  | locked
  /-- Neither a file nor a directory, but a pipe, a device or, where a directory lists it, a link; with what can be read
  from it. -/
  | special (content : List UInt8)

/-- What the system can object to. -/
inductive FileFault where
  | noEntry
  | notDirectory
  | isDirectory
  | denied
  deriving DecidableEq, Repr

def FileFault.words : FileFault → Text
  | .noEntry => "ENOENT: no such file or directory"
  | .notDirectory => "ENOTDIR: not a directory"
  | .isDirectory => "EISDIR: illegal operation on a directory"
  | .denied => "EACCES: permission denied"

/-- The text of a fault in an operation on a path. -/
def FileFault.message (f : FileFault) (operation path : Text) : Text :=
  f.words ++ ", " ++ operation ++ " '" ++ path ++ "'"

/-- All that a command may ask of the file system. -/
structure Files where
  look : Text → Except FileFault FileEntry
  /-- What stands in the way of writing a file. -/
  writeFault? : Text → Option FileFault
  /-- The working directory, as a path from the root. -/
  cwd : Text

namespace Files

/-- The content of a file, or the text of what prevents reading it.  A directory can be opened, and then not read. -/
def read (fs : Files) (path : Text) : Except Text (List UInt8) :=
  match fs.look path with
  | .ok (.file content) => .ok content
  | .ok (.special content) => .ok content
  | .ok .locked => .error (FileFault.denied.message "open" path)
  | .ok (.directory _) => .error (FileFault.isDirectory.words ++ ", read")
  | .error f => .error (f.message "open" path)

end Files

/-! ## Looking a path up in a tree -/

namespace FileEntry

def inside? (entries : List (Text × FileEntry)) (name : Text) : Option FileEntry := entries.lookup name

/-- A directory outside the tree.  Nothing is known of what such a directory holds, and it is taken to be empty. -/
def outside : FileEntry := .directory []

/-- Follows the parts of a path from an entry on; `above` are the directories that contain it, the nearest first.  Only
a directory can be gone on from, also by an empty part. -/
def follow : List FileEntry → FileEntry → List Text → Except FileFault (List FileEntry × FileEntry)
  | above, e, [] => .ok (above, e)
  | above, e, part :: rest =>
    match e with
    | .directory entries =>
      if part = [] || part = Path.here then follow above e rest
      else if part = Path.up then
        match above with
        | [] => follow [] outside rest
        | d :: above => follow above d rest
      else match inside? entries part with
        | some next => follow (e :: above) next rest
        | none => .error .noEntry
    | _ => .error .notDirectory

/-- Where a path starts from. -/
def base (root : FileEntry) (path : Text) : FileEntry := if Path.isAbsolute path then outside else root

/-- What a path leads to from a directory; the empty path leads nowhere. -/
def look (root : FileEntry) (path : Text) : Except FileFault FileEntry :=
  if path = [] then .error .noEntry else (follow [] (root.base path) (Path.parts path)).map Prod.snd

/-- The parts of a path before its last one, and that; an empty last part stands for a slash at the end. -/
def splitLast (path : Text) : List Text × Text :=
  let ps := (Path.parts path).reverse
  match ps.dropWhile (· = []) with
  | [] => ([], [])
  | last :: before => (before.reverse, if ps.head? = some [] then [] else last)

/-- What stands in the way of writing a file: the directory for it has to be there, and no directory may be in its
place.  A path that ends in a slash can only be a directory's. -/
def writeFault? (root : FileEntry) (path : Text) : Option FileFault :=
  if path = [] then some .noEntry
  else
    let (before, last) := splitLast path
    match follow [] (root.base path) before with
    | .error f => some f
    | .ok (_, .directory entries) =>
      if last = [] || last = Path.here || last = Path.up then some .isDirectory
      else match inside? entries last with
        | some (.directory _) => some .isDirectory
        | _ => none
    | .ok _ => some .notDirectory

/-- The files of a tree that is the working directory of that path. -/
def files (root : FileEntry) (cwd : Text := "/work/tree") : Files := ⟨root.look, root.writeFault?, cwd⟩

/-! ## Building trees -/

/-- The entries with one of them put in or replaced. -/
def put (entries : List (Text × FileEntry)) (name : Text) (e : FileEntry) : List (Text × FileEntry) :=
  entries.filter (·.1 ≠ name) ++ [(name, e)]

def entries : FileEntry → List (Text × FileEntry)
  | .directory es => es
  | _ => []

/-- The tree with an entry put under a path, and the directories on the way made. -/
def insert (root : FileEntry) : List Text → FileEntry → FileEntry
  | [], e => e
  | name :: rest, e =>
    let below := (inside? root.entries name).getD (.directory [])
    .directory (put root.entries name (insert below rest e))

/-! ## Schema files -/

/-- The ending of the names of schema files. -/
def schemaEnding : Text := ".cddl"

def isRegular : FileEntry → Bool
  | .file _ => true
  | .locked => true
  | _ => false

mutual

/-- The paths of the schema files that an entry of a directory is or holds; those that it holds in ascending order. -/
def schemaFilesAt (directory name : Text) : FileEntry → List Text
  | .directory entries => (schemaFilesIn (Path.child directory name) entries).mergeSort Text.le
  | e => if e.isRegular && schemaEnding <:+ name then [Path.child directory name] else []

/-- The paths of the schema files at any depth below a directory, one entry of it after the other. -/
def schemaFilesIn (directory : Text) : List (Text × FileEntry) → List Text
  | [] => []
  | (name, e) :: rest => schemaFilesAt directory name e ++ schemaFilesIn directory rest

end

/-- The paths of the schema files at any depth below a directory with the given entries, in ascending order. -/
def schemaFiles (directory : Text) (entries : List (Text × FileEntry)) : List Text :=
  (schemaFilesIn directory entries).mergeSort Text.le

end FileEntry
end Cddl
