import Cddl.Location
/-!
# Diagnostics

What a caller is told when a schema cannot be read: a code, a message and, where they are known, the place, the stretch
and the source text.  `Diagnostic.render` shows the source line with a caret under the place.
-/
namespace Cddl

/-- The codes that tools may match on. -/
inductive Diagnostic.Code where
  | lexError | unexpectedToken | illegalToken | expectedAssignment | unrecognizedType2 | unimplemented | treeOverwrite
  deriving DecidableEq, Repr

/-- The family of a diagnostic; a mismatch says what was wanted and what stood there. -/
inductive Diagnostic.Family where
  | general
  | lexical
  | mismatch (expected found : Text)
  | unimplemented
  | tree
  deriving DecidableEq, Repr

structure Diagnostic where
  family : Diagnostic.Family
  code : Diagnostic.Code
  message : Text
  location : Option Location := none
  span : Option Span := none
  source : Option Text := none
  /-- A fatal diagnostic ends the whole reading and not just the rule that it is in. -/
  fatal : Bool := false
  deriving DecidableEq, Repr

namespace Diagnostic

def Code.label : Code → String
  | .lexError => "LEX_ERROR"
  | .unexpectedToken => "UNEXPECTED_TOKEN"
  | .illegalToken => "ILLEGAL_TOKEN"
  | .expectedAssignment => "EXPECTED_ASSIGNMENT"
  | .unrecognizedType2 => "UNRECOGNIZED_TYPE2"
  | .unimplemented => "UNIMPLEMENTED"
  | .treeOverwrite => "TREE_OVERWRITE"

/-! ## Building one -/

/-- Where a diagnostic points. -/
structure Context where
  location : Option Location := none
  span : Option Span := none
  source : Option Text := none
  fatal : Bool := false
  deriving DecidableEq, Repr

/-- The place of a context; a stretch stands in with its start. -/
def Context.place (c : Context) : Option Location := c.location <|> c.span.map Span.start

def build (family : Family) (code : Code) (message : Text) (context : Context) : Diagnostic :=
  { family, code, message, location := context.place, span := context.span, source := context.source,
    fatal := context.fatal }

def general (code : Code) (message : Text) (context : Context) : Diagnostic := build .general code message context

/-- Text that is no token; always fatal. -/
def lexical (message : Text) (context : Context) : Diagnostic :=
  build .lexical .lexError message { context with fatal := true }

/-- A token that the grammar has no use for. -/
def mismatch (code : Code) (expected found : Text) (context : Context) : Diagnostic :=
  build (.mismatch expected found) code ("Expected " ++ expected ++ " but got " ++ found) context

/-- A form that is recognized and left out on purpose; always fatal. -/
def unimplemented (message : Text) (context : Context) : Diagnostic :=
  build .unimplemented .unimplemented message { context with fatal := true }

/-- A broken invariant of a tree of nodes; it has no place. -/
def tree (message : Text) : Diagnostic := build .tree .treeOverwrite message {}

/-- A link in a tree that would put a node under itself. -/
def treeOverwrite : Diagnostic := tree "attempt to overwrite existing tree node"

/-! ## Showing one -/

def heading (d : Diagnostic) : Text :=
  match d.location with
  | some l =>
    "Error [" ++ d.code.label ++ "] at line " ++ Text.ofInt l.line ++ ", column " ++ Text.ofInt l.column ++ ":"
  | none => "Error [" ++ d.code.label ++ "]:"

/-- The line of a source that a place lies in, if the source has such a line. -/
def sourceLine? (source : Text) (l : Location) : Option Text :=
  if 1 ≤ l.line then source.lines[(l.line - 1).toNat]? else none

/-- A blank line, the source line after its number, and a caret under the column; a column before the first counts as
the first. -/
def excerpt (line : Text) (l : Location) : List Text :=
  let number := Text.ofInt l.line
  let caret := Text.spaces (number.length + 3) ++ Text.spaces (l.column - 1).toNat ++ "^"
  [[], "  " ++ number ++ " | " ++ line, "  " ++ caret]

def excerptLines (d : Diagnostic) : List Text :=
  match d.source, d.location with
  | some source, some l =>
    if source = [] then []
    else match sourceLine? source l with
      | some line => excerpt line l
      | none => []
  | _, _ => []

def render (d : Diagnostic) : Text :=
  Text.join "\n" ([d.heading, "  " ++ d.message] ++ d.excerptLines)

/-- Several diagnostics, a blank line between them. -/
def renderAll (ds : List Diagnostic) : Text := Text.join "\n\n" (ds.map render)

end Diagnostic
end Cddl
