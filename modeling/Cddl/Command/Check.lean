import Cddl.Datum.Json
import Cddl.Files
import Cddl.Grammar.Document
import Cddl.Text.Utf8
/-!
# Checking schema files

A file is checked by reading it; what is wrong is summed up with the code, the message and the place.  Directories
stand for the schema files in them, in ascending order of their paths.
-/
namespace Cddl

/-- What is said about a diagnostic in a summary. -/
structure ErrorSummary where
  code : Text
  message : Text
  line : Option Int := none
  column : Option Int := none
  deriving DecidableEq, Repr

namespace ErrorSummary

def ofDiagnostic (d : Diagnostic) : ErrorSummary :=
  ⟨d.code.label, d.message, d.location.map Location.line, d.location.map Location.column⟩

def record (e : ErrorSummary) : Datum :=
  .object (Datum.field "code" (.text e.code) ++ Datum.field "message" (.text e.message) ++
    Datum.field? "line" (e.line.map Datum.int) ++ Datum.field? "column" (e.column.map Datum.int))

/-- A summary on one line. -/
def text (e : ErrorSummary) : Text :=
  let line : Text := match e.line with
    | some n => " (line " ++ Text.ofInt n ++ ")"
    | none => []
  "  [" ++ e.code ++ "] " ++ e.message ++ line

end ErrorSummary

/-- The outcome of checking a file. -/
structure CheckResult where
  file : Text
  success : Bool
  rules : Nat
  errors : List ErrorSummary
  deriving DecidableEq, Repr

namespace CheckResult

/-- The outcome for a file with the given content, or with a reason why it could not be read. -/
def ofContent (file : Text) (content : Except Text (List UInt8)) : CheckResult :=
  match content with
  | .error reason =>
    ⟨file, false, 0, [{ code := "FILE_READ_ERROR", message := "Failed to read file: " ++ reason }]⟩
  | .ok bytes =>
    match parse (Text.ofUtf8 bytes) with
    | .ok document => ⟨file, true, document.rules.length, []⟩
    | .error ds => ⟨file, false, 0, ds.map ErrorSummary.ofDiagnostic⟩

def record (r : CheckResult) : Datum :=
  .object (Datum.field "file" (.text r.file) ++ Datum.field "success" (.bool r.success) ++
    Datum.field "rules" (.int r.rules) ++ Datum.field "errors" (.array (r.errors.map ErrorSummary.record)))

def heading (r : CheckResult) : Text :=
  if r.success then "✓ " ++ r.file ++ " (" ++ Text.ofNat r.rules ++ " rules)" else "✗ " ++ r.file

/-- An outcome as lines, the summaries of its errors last. -/
def lines (r : CheckResult) : List Text := r.heading :: r.errors.map ErrorSummary.text

/-- The outcomes up to the first failure. -/
def untilFailure : List CheckResult → List CheckResult
  | [] => []
  | r :: rs => if r.success then r :: untilFailure rs else [r]

end CheckResult

namespace Files

/-- The outcome of checking the file that a path leads to. -/
def check (fs : Files) (path : Text) : CheckResult := .ofContent (Path.shown fs.cwd path) (fs.read path)

/-- The files that a path stands for: itself, whatever its name, or the schema files in a directory. -/
def expand (path : Text) : FileEntry → List Text
  | .directory entries => FileEntry.schemaFiles path entries
  | _ => [path]

/-- The files that paths stand for, or the text of the first fault. -/
def collect (fs : Files) : List Text → Except Text (List Text)
  | [] => .ok []
  | path :: paths =>
    match fs.look path with
    | .error f => .error (f.message "stat" path)
    | .ok e => (collect fs paths).map (expand path e ++ ·)

end Files
end Cddl
