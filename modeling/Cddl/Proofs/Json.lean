import Cddl.Proofs.Binary64.Written
/-!
# JSON values

What a JSON text denotes.  A number is the exact value of its numeral, so that it says nothing about the layout of the
digits; the fields of an object keep their order.  `Json.read?` reads a text of any layout, and `Datum.json` says what
data denotes without a text.
-/
namespace Cddl

inductive Json where
  | null
  | bool (b : Bool)
  | number (q : ℚ)
  | string (t : Text)
  | array (items : List Json)
  | object (fields : List (Text × Json))

namespace Json

/-! ## Reading -/

def isBlank (u : CodeUnit) : Bool := u = ' ' || u = '\t' || u = '\n' || u = '\r'

def skip (t : Text) : Text := t.dropWhile isBlank

section

variable {α : Type} (closing : CodeUnit) (part? : Text → Option (α × Text))

/-- Entries with commas between them, of which there is one at least, up to the closing unit. -/
def row? : Nat → Text → Option (List α × Text)
  | 0, _ => none
  | fuel + 1, t =>
    (part? t).bind fun (a, r) =>
      match skip r with
      | [] => none
      | u :: r =>
        if u = ',' then (row? fuel r).map fun (as, rest) => (a :: as, rest)
        else if u = closing then some ([a], r)
        else none

/-- What stands behind an opening unit up to the closing one. -/
def enclosed? (fuel : Nat) (t : Text) : Option (List α × Text) :=
  match skip t with
  | [] => none
  | u :: r => if u = closing then some ([], r) else row? closing part? fuel (u :: r)

end

/-- The field of an object that a text begins with. -/
def field? (value? : Text → Option (Json × Text)) (t : Text) : Option ((Text × Json) × Text) :=
  match skip t with
  | [] => none
  | u :: r =>
    if u = '"' then
      (readJson r).bind fun (name, r) =>
        match skip r with
        | [] => none
        | u :: r => if u = ':' then (value? r).map fun (j, rest) => ((name, j), rest) else none
    else none

def number? (t : Text) : Option (Json × Text) :=
  (Decimal.read? (t.takeWhile Binary64.isNumberUnit)).map fun d => (number d.signed, t.dropWhile Binary64.isNumberUnit)

def word? (t : Text) : Option (Json × Text) :=
  if Text.ofString "null" <+: t then some (null, t.drop 4)
  else if Text.ofString "true" <+: t then some (bool true, t.drop 4)
  else if Text.ofString "false" <+: t then some (bool false, t.drop 5)
  else none

/-- The value that a text begins with, blanks aside, and what follows it.  The fuel bounds how deep values are nested
and how many stand in a row; the length of the text is enough. -/
def value? : Nat → Text → Option (Json × Text)
  | 0, _ => none
  | fuel + 1, t =>
    match skip t with
    | [] => none
    | u :: r =>
      if u = '"' then (readJson r).map fun (s, rest) => (string s, rest)
      else if u = '[' then (enclosed? ']' (value? fuel) fuel r).map fun (items, rest) => (array items, rest)
      else if u = '\x7b' then
        (enclosed? '\x7d' (field? (value? fuel)) fuel r).map fun (fields, rest) => (object fields, rest)
      else if Binary64.isNumberUnit u then number? (u :: r)
      else word? (u :: r)

/-- **The value that a text denotes.** -/
def read? (t : Text) : Option Json :=
  (value? t.length t).bind fun (j, rest) => if skip rest = [] then some j else none

end Json

/-! ## The value of data -/

namespace Datum

mutual

/-- What data denotes, if it is there. -/
def json? : Datum → Option Json
  | .null => some .null
  | .absent => none
  | .bool b => some (.bool b)
  | .int n => some (.number n)
  | .float x => some (x.written?.elim .null fun d => .number d.signed)
  | .text t => some (.string t)
  | .array items => some (.array (jsonItemValues items))
  | .object fields => some (.object (jsonFieldValues fields))

def jsonItemValues : List Datum → List Json
  | [] => []
  | d :: ds => (json? d).getD .null :: jsonItemValues ds

def jsonFieldValues : List (Text × Datum) → List (Text × Json)
  | [] => []
  | (name, d) :: fs => ((json? d).map (name, ·)).toList ++ jsonFieldValues fs

end

/-- **What data denotes**: a field that is not there is left out, and an item that is not there is null. -/
def json (d : Datum) : Json := d.json?.getD .null

theorem json?_of_present {d : Datum} (h : d ≠ .absent) : d.json? = some d.json := by
  cases d with
  | absent => exact absurd rfl h
  | _ => rfl

end Datum
end Cddl
