import Cddl.Command.Arguments
import Cddl.Command.Check
import Cddl.Ancestry
/-!
# The commands

What a command prints, what it writes and how it ends, as a function of the command and the files.  The progress of a
command goes to the error stream: a dash and the activity at the start, and a mark and the result at the end.
-/
namespace Cddl

structure Outcome where
  failed : Bool := false
  out : Text := []
  progress : Text := []
  /-- The path and content of a file that is written. -/
  written : Option (Text × Text) := none
  deriving DecidableEq, Repr

namespace Outcome

/-- Lines, each with its end. -/
def unlines (ls : List Text) : Text := ls.flatMap (· ++ "\n")

def started (activity : Text) : Text := "- " ++ activity ++ "\n"

def succeeded (result : Text) : Text := "✔ " ++ result ++ "\n"

def gaveUp (result : Text) : Text := "✖ " ++ result ++ "\n"

end Outcome

namespace Command

open Outcome

def versionText : Text := "0.1.0"

def counted (n : Nat) (what : Text) : Text := Text.ofNat n ++ " " ++ what

/-- The outcome where a schema has faults. -/
def faulty (activity : Text) (ds : List Diagnostic) : Outcome :=
  { failed := true, out := unlines [Diagnostic.renderAll ds]
    progress := started activity ++ gaveUp ("Parsing failed with " ++ counted ds.length "error(s)") }

/-- Reads the schema that a file holds and goes on with it, or ends with a reason after the given words. -/
def withDocument (fs : Files) (file activity failure : Text) (go : Document → Outcome) : Outcome :=
  match fs.read file with
  | .error reason =>
    { failed := true, progress := started activity ++ gaveUp (failure ++ ": " ++ reason) }
  | .ok bytes =>
    match Cddl.parse (Text.ofUtf8 bytes) with
    | .error ds => faulty activity ds
    | .ok document => go document

/-! ## Rules -/

def layout (indented : Bool) : Datum.JsonLayout := if indented then .indented else .compact

/-- Writes the tree of a document to a file. -/
def writeTree (fs : Files) (json progress path : Text) : Outcome :=
  match fs.writeFault? path with
  | some f =>
    { failed := true, progress := progress ++ gaveUp ("Failed to parse: " ++ f.message "open" path) }
  | none => { out := unlines ["AST written to " ++ path], progress, written := some (path, json) }

def runParse (fs : Files) (file : Text) (output : Option Text) (json indented : Bool) : Outcome :=
  let activity := "Parsing " ++ file ++ "..."
  withDocument fs file activity "Failed to parse" fun document =>
    let progress := started activity ++ succeeded ("Parsed " ++ counted document.rules.length "rule(s)")
    let tree := document.record.toJson (layout indented)
    match output with
    | some path => writeTree fs tree progress path
    | none =>
      if json then { out := unlines [tree], progress }
      else { out := unlines ([] :: document.summary.map ("  " ++ ·)), progress }

/-! ## Faults -/

def runCheck (fs : Files) (paths : List Text) (failFast json : Bool) : Outcome :=
  match fs.collect paths with
  | .error reason => { failed := true, out := unlines ["Failed to read input: " ++ reason] }
  | .ok [] => { failed := true, out := unlines ["No .cddl files found"] }
  | .ok files =>
    let all := files.map fs.check
    let results := if failFast then CheckResult.untilFailure all else all
    { failed := results.any fun r => !r.success
      out :=
        if json then unlines [(Datum.array (results.map CheckResult.record)).toJson .indented]
        else unlines (results.flatMap CheckResult.lines) }

/-! ## Nodes -/

def kindNames : Text := Text.join ", " (NodeKind.all.map fun k => k.label)

def listNodes (activity : Text) (kind : Option NodeKind) (json : Bool) (document : Document) : Outcome :=
  match Ancestry.ofDocument document with
  | .error f => { failed := true, progress := started activity ++ gaveUp ("Failed to index: " ++ f.message) }
  | .ok index =>
    let entries := Ancestry.Entry.select index.entries kind
    let progress := started activity ++ succeeded ("Indexed " ++ counted index.size "node(s)")
    if json then { out := unlines [(Datum.array (entries.map Ancestry.Entry.record)).toJson .indented], progress }
    else { out := unlines ([] :: entries.map fun e => "  " ++ e.line), progress }

def runParents (fs : Files) (file : Text) (kind : Option Text) (json : Bool) : Outcome :=
  let activity := "Indexing " ++ file ++ "..."
  let list (kind : Option NodeKind) : Outcome :=
    withDocument fs file activity "Failed to index" (listNodes activity kind json)
  match kind with
  | none => list none
  | some name =>
    match NodeKind.ofLabel? name with
    | some kind => list (some kind)
    | none => { failed := true, out := unlines ["Unknown node kind: " ++ name, "Kinds: " ++ kindNames] }

/-! ## Any command -/

def run (fs : Files) : Command → Outcome
  | .version => { out := unlines [versionText] }
  | .parse file output json indented => runParse fs file output json indented
  | .check paths failFast json => runCheck fs paths failFast json
  | .parents file kind json => runParents fs file kind json

/-- What a command line does. -/
def runArguments (fs : Files) (args : List Text) : Outcome :=
  match ofArguments args with
  | .ok command => run fs command
  | .error f => { failed := true, progress := unlines [f.message] }

end Command
end Cddl
