import Cddl.Text
/-!
# Decimal numerals

A numeral with a fraction or an exponent denotes a whole number of units of some power of ten, exactly.
-/
namespace Cddl

def powerOfTen (n : Nat) : Nat := Nat.pow 10 n

/-- The number `digits * 10 ^ exponent`, negated if so marked; a negative zero differs from zero. -/
structure Decimal where
  negative : Bool
  digits : Nat
  exponent : Int
  deriving DecidableEq, Repr

namespace Decimal

/-- The sign that a text starts with, if any, and the rest. -/
def splitSign : Text → Bool × Text
  | [] => (false, [])
  | u :: r => if u = '-' then (true, r) else if u = '+' then (false, r) else (false, u :: r)

def readExponent (t : Text) : Option Int :=
  let (negative, digits) := splitSign t
  if digits ≠ [] && digits.all CodeUnit.isDigit then
    some (if negative then -(Text.toNat 10 digits : Int) else Text.toNat 10 digits)
  else none

/-- Reads an optional sign, digits with a point before, among or after them, and an optional exponent. -/
def read? (t : Text) : Option Decimal :=
  let (negative, t) := splitSign t
  let whole := t.takeWhile CodeUnit.isDigit
  let (fraction, rest) := match t.dropWhile CodeUnit.isDigit with
    | [] => ([], [])
    | u :: r => if u = '.' then (r.takeWhile CodeUnit.isDigit, r.dropWhile CodeUnit.isDigit) else ([], u :: r)
  let mantissa (exponent : Int) : Option Decimal :=
    some ⟨negative, Text.toNat 10 (whole ++ fraction), exponent - fraction.length⟩
  if whole ++ fraction = [] then none
  else match rest with
    | [] => mantissa 0
    | u :: r => if u = 'e' || u = 'E' then (readExponent r).bind mantissa else none

end Decimal
end Cddl
