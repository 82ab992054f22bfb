import Cddl.Datum.Json
/-!
# Short keys for data

Each array and object that is keyed gets a small number by its shape, and the shape names the parts by their own keys.
So equal data gets equal keys, whatever the order of its fields, and a key stays what it is as more data is keyed.
-/
namespace Cddl

/-- The shapes that have been numbered, in order. -/
structure KeyTable where
  shapes : List Text := []

namespace KeyTable

/-- The key of a shape, which is numbered if it is new. -/
def number (shape : Text) : StateM KeyTable Text := fun table =>
  match table.shapes.idxOf? shape with
  | some i => ("#" ++ Text.ofNat i, table)
  | none => ("#" ++ Text.ofNat table.shapes.length, { shapes := table.shapes ++ [shape] })

end KeyTable

namespace Datum

/-- The key of a number; the two zeros have their own. -/
def floatKey (x : Binary64) : Text := if x = Binary64.zero true then "-0" else x.toText

/-- Fields in ascending order of their names. -/
def sortFields {α : Type} (fields : List (Text × α)) : List (Text × α) := fields.mergeSort fun a b => a.1.le b.1

def keyObject (fields : List (Text × StateM KeyTable Text)) : StateM KeyTable Text := do
  let parts ← (sortFields fields).mapM fun (name, key) => return name.jsonQuoted ++ ":" ++ (← key)
  KeyTable.number ("\x7b" ++ Text.join "," parts ++ "\x7d")

def keyArray (items : List (StateM KeyTable Text)) : StateM KeyTable Text := do
  let parts ← items.mapM id
  KeyTable.number ("[" ++ Text.join "," parts ++ "]")

mutual

/-- The key of a datum; parts are numbered before what they are part of, and fields in the order of their names. -/
def key : Datum → StateM KeyTable Text
  | .null => return "null"
  | .absent => return "undefined"
  | .bool b => return if b then "true" else "false"
  | .int n => return Text.ofInt n ++ "n"
  | .float x => return floatKey x
  | .text t => return t.jsonQuoted
  | .array items => keyArray (itemKeys items)
  | .object fields => keyObject (fieldKeys fields)

def itemKeys : List Datum → List (StateM KeyTable Text)
  | [] => []
  | d :: ds => key d :: itemKeys ds

/-- The keys of the fields that are there. -/
def fieldKeys : List (Text × Datum) → List (Text × StateM KeyTable Text)
  | [] => []
  | (_, .absent) :: fs => fieldKeys fs
  | (name, d) :: fs => (name, key d) :: fieldKeys fs

end

end Datum
end Cddl
