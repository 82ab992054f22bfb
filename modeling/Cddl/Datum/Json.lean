import Cddl.Binary64.Shortest
import Cddl.Datum
/-!
# JSON text

Two layouts of one form: everything in a line, or a line for each item and field.  A number that JSON cannot write, and
an item that is not there, is written as null; a field that is not there is left out.
-/
namespace Cddl

/-! ## Strings -/

/-- The four lower-case hexadecimal digits of a unit. -/
def CodeUnit.hexDigits (u : CodeUnit) : Text :=
  let digits := (Nat.toDigits 16 u.toNat).map CodeUnit.ofChar
  List.replicate (4 - digits.length) (CodeUnit.ofChar '0') ++ digits

/-- A unit as it stands in a JSON string, when it is not one of a pair. -/
def CodeUnit.jsonEscaped (u : CodeUnit) : Text :=
  if u = '"' then "\\\""
  else if u = '\\' then "\\\\"
  else if u = 0x08 then "\\b"
  else if u = '\t' then "\\t"
  else if u = '\n' then "\\n"
  else if u = 0x0C then "\\f"
  else if u = '\r' then "\\r"
  else if u < 0x20 || u.isHigh || u.isLow then "\\u" ++ u.hexDigits
  else [u]

/-- The inside of a JSON string; half of a pair is escaped, so that every text has a string. -/
def Text.jsonEscaped : Text → Text
  | [] => []
  | [u] => u.jsonEscaped
  | u :: v :: r =>
    if u.isHigh && v.isLow then u :: v :: jsonEscaped r else u.jsonEscaped ++ jsonEscaped (v :: r)

def Text.jsonQuoted (t : Text) : Text := "\"" ++ t.jsonEscaped ++ "\""

namespace Datum

/-! ## Layouts -/

/-- What is written between the parts of an array or object. -/
structure JsonLayout where
  /-- The line break before a part at the given depth. -/
  lineBreak : Nat → Text
  colon : Text

def JsonLayout.compact : JsonLayout := ⟨fun _ => [], ":"⟩

/-- Two spaces for each level. -/
def JsonLayout.indented : JsonLayout := ⟨fun depth => "\n" ++ Text.spaces (2 * depth), ": "⟩

/-- Parts between brackets; there is no line break in an empty pair. -/
def JsonLayout.enclose (layout : JsonLayout) (depth : Nat) (opening closing : Text) (parts : List Text) : Text :=
  if parts = [] then opening ++ closing
  else
    opening ++ layout.lineBreak (depth + 1) ++ Text.join ("," ++ layout.lineBreak (depth + 1)) parts ++
      layout.lineBreak depth ++ closing

/-- A number as JSON writes it. -/
def jsonNumber (x : Binary64) : Text :=
  match x with
  | .finite .. => x.toText
  | _ => "null"

mutual

def jsonAt (layout : JsonLayout) (depth : Nat) : Datum → Text
  | .null => "null"
  | .absent => "null"
  | .bool b => if b then "true" else "false"
  | .int n => Text.ofInt n
  | .float x => jsonNumber x
  | .text t => t.jsonQuoted
  | .array items => layout.enclose depth "[" "]" (jsonItems layout (depth + 1) items)
  | .object fields => layout.enclose depth "\x7b" "\x7d" (jsonFields layout (depth + 1) fields)

def jsonItems (layout : JsonLayout) (depth : Nat) : List Datum → List Text
  | [] => []
  | d :: ds => jsonAt layout depth d :: jsonItems layout depth ds

def jsonFields (layout : JsonLayout) (depth : Nat) : List (Text × Datum) → List Text
  | [] => []
  | (_, .absent) :: fs => jsonFields layout depth fs
  | (name, d) :: fs => (name.jsonQuoted ++ layout.colon ++ jsonAt layout depth d) :: jsonFields layout depth fs

end

def toJson (layout : JsonLayout) (d : Datum) : Text := jsonAt layout 0 d

end Datum
end Cddl
