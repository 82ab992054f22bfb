import Cddl.Binary64
/-!
# Plain data

Values made of nothing but data: what a JSON text can hold, with integers kept apart from floating-point numbers and a
mark for what is not there.  The fields of an object keep the order in which they were written.
-/
namespace Cddl

inductive Datum where
  | null
  | absent
  | bool (b : Bool)
  | int (n : Int)
  | float (x : Binary64)
  | text (t : Text)
  | array (items : List Datum)
  | object (fields : List (Text × Datum))

namespace Datum

/-! ## Fields -/

/-- One field, as a list to build objects from. -/
def field (name : String) (value : Datum) : List (Text × Datum) := [(name, value)]

/-- A field that is left out if there is no value for it. -/
def field? (name : String) (value : Option Datum) : List (Text × Datum) :=
  match value with
  | some value => field name value
  | none => []

/-- An exact integer as data for readers that have none: its decimal text. -/
def decimal (n : Int) : Datum := .text (Text.ofInt n)

end Datum
end Cddl
