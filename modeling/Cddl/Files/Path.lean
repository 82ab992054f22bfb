import Cddl.Text
/-!
# Paths

Paths are written with slashes.  A path is made plain by leaving out empty and `.` parts and by taking each `..` back
together with the part before it; what is left of the `..` parts leads out of the directory that the path starts from.
-/
namespace Cddl.Path

/-- The parts of a path, the empty ones included. -/
def parts (path : Text) : List Text := path.splitOn '/'

def isAbsolute (path : Text) : Bool := path.head? = some '/'

def here : Text := "."

def up : Text := ".."

/-- One more part after plain ones, of which the last comes first. -/
def push (absolute : Bool) (before : List Text) (part : Text) : List Text :=
  if part = [] || part = here then before
  else if part = up then
    match before with
    | [] => if absolute then [] else [up]
    | last :: rest => if last = up then up :: before else rest
  else part :: before

/-- The parts of a path made plain. -/
def plainParts (absolute : Bool) (ps : List Text) : List Text := (ps.foldl (push absolute) []).reverse

def ofParts (absolute : Bool) (ps : List Text) : Text :=
  if absolute then '/' :: Text.join "/" ps else if ps = [] then here else Text.join "/" ps

/-- A path made plain. -/
def plain (path : Text) : Text := ofParts (isAbsolute path) (plainParts (isAbsolute path) (parts path))

/-- The path of something in a directory. -/
def child (directory name : Text) : Text :=
  ofParts (isAbsolute directory) (plainParts (isAbsolute directory) (parts directory ++ [name]))

/-! ## From one place to another -/

/-- The parts that lead from the root to where a path leads to, if it starts from a working directory. -/
def resolve (cwd path : Text) : List Text :=
  plainParts true (if isAbsolute path then parts path else parts cwd ++ parts path)

/-- What is left of two lists behind what they have in common at the front. -/
def apart : List Text → List Text → List Text × List Text
  | s :: ss, t :: ts => if s = t then apart ss ts else (s :: ss, t :: ts)
  | ss, ts => (ss, ts)

/-- The way from the working directory to where a path leads to: up to what contains both, and down from there. -/
def relative (cwd path : Text) : Text :=
  let (out, down) := apart (plainParts true (parts cwd)) (resolve cwd path)
  Text.join "/" (out.map (fun _ => up) ++ down)

/-- A path as it is shown: as the way to where it leads to, unless that is the working directory itself. -/
def shown (cwd path : Text) : Text := if relative cwd path = [] then path else relative cwd path

end Cddl.Path
