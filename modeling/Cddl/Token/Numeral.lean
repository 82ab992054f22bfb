import Cddl.Literal
/-!
# Numerals

A numeral is an optional minus sign and then `0x` with hexadecimal digits, `0b` with binary digits, or decimal digits
with an optional fraction and an optional exponent.  Each part takes the longest run that it can; a dot belongs to the
numeral only with a digit after it, so that a range operator is left alone.
-/
namespace Cddl.Numeral

/-- The length of the run of units of a class that a text begins with. -/
def run (class? : CodeUnit → Bool) (s : Text) : Nat := (s.takeWhile class?).length

def startsWithDigit (s : Text) : Bool := s.head?.any CodeUnit.isDigit

/-- Whether a text begins with a numeral. -/
def startsHere (s : Text) : Bool := startsWithDigit s || (s.head? = some '-' && startsWithDigit (s.drop 1))

/-- The length of the fraction that a text begins with. -/
def fractionLength (s : Text) : Nat :=
  if s.head? = some '.' && startsWithDigit (s.drop 1) then run CodeUnit.isDigit (s.drop 1) + 1 else 0

def isSign (u : CodeUnit) : Bool := u = '+' || u = '-'

/-- The length of the exponent that a text begins with. -/
def exponentLength (s : Text) : Nat :=
  if s.head? = some 'e' || s.head? = some 'E' then
    if startsWithDigit (s.drop 1) then run CodeUnit.isDigit (s.drop 1) + 1
    else if (s.drop 1).head?.any isSign && startsWithDigit (s.drop 2) then run CodeUnit.isDigit (s.drop 2) + 2
    else 0
  else 0

/-- The digits that may follow the radix mark a text begins with, and their base. -/
def radix? (s : Text) : Option ((CodeUnit → Bool) × Nat) :=
  if Text.ofString "0x" <+: s then some (CodeUnit.isHexDigit, 16)
  else if Text.ofString "0b" <+: s then some (CodeUnit.isBinaryDigit, 2)
  else none

/-- An integer literal of the given magnitude; the sign decides its kind, also of zero. -/
def integer (negative : Bool) (magnitude : Nat) : Literal :=
  if negative then .int (-(magnitude : Int)) else .uint magnitude

inductive Reading where
  /-- The literal and the length of its text. -/
  | literal (v : Literal) (length : Nat)
  /-- A sign and radix mark of the given length, and no digit after them. -/
  | noDigits (length : Nat)
  deriving DecidableEq, Repr

/-- Reads the decimal numeral that `s` holds after a sign of the given length. -/
def readDecimal (s : Text) (negative : Bool) (sign : Nat) : Reading :=
  let digits := run CodeUnit.isDigit (s.drop sign)
  let whole := sign + digits
  let fraction := fractionLength (s.drop whole)
  let exponent := exponentLength (s.drop (whole + fraction))
  let length := whole + fraction + exponent
  if fraction + exponent = 0 then
    .literal (integer negative (Text.toNat 10 ((s.drop sign).take digits))) length
  else .literal (.float (Binary64.ofText (s.take length))) length

/-- Reads the numeral that a text begins with. -/
def read (s : Text) : Reading :=
  let negative : Bool := s.head? = some '-'
  let sign := if negative then 1 else 0
  match radix? (s.drop sign) with
  | some (digit, base) =>
    let body := s.drop (sign + 2)
    let digits := run digit body
    if digits = 0 then .noDigits (sign + 2)
    else .literal (integer negative (Text.toNat base (body.take digits))) (sign + 2 + digits)
  | none => readDecimal s negative sign

/-- The length of the range operator that joins a text to the numeral right after it, or zero.  Three dots are read as
one operator where they stand, and are not tried as two dots and another. -/
def rangeLength (s : Text) : Nat :=
  if Text.ofString "..." <+: s then if startsHere (s.drop 3) then 3 else 0
  else if Text.ofString ".." <+: s then if startsHere (s.drop 2) then 2 else 0
  else 0

end Cddl.Numeral
