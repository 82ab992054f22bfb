import Cddl.Decimal
/-!
# Double precision numbers

The values of the 64-bit binary floating-point format, as data: equality tells the two zeros apart and holds of the one
NaN.  A decimal is read to the nearest value, in exact arithmetic, and a tie goes to the even significand.
-/
namespace Cddl

def powerOfTwo (n : Nat) : Nat := Nat.pow 2 n

/-- A finite value is `significand * 2 ^ exponent`, with a significand below `2 ^ 53` that is at least `2 ^ 52` unless
the exponent is the least one, `-1074`; so each value is written in one way. -/
inductive Binary64 where
  | nan
  | infinity (negative : Bool)
  | finite (negative : Bool) (significand : Nat) (exponent : Int)
  deriving DecidableEq, Repr

namespace Binary64

def zero (negative : Bool) : Binary64 := .finite negative 0 (-1074)

/-! ## The nearest value -/

/-- The quotient rounded to the nearest whole number, a tie to the even one. -/
def roundQuotient (num den : Nat) : Nat :=
  let q := num / den
  let r := num % den
  if den < 2 * r ∨ (2 * r = den ∧ q % 2 = 1) then q + 1 else q

/-- The exponent of the greatest power of two that is at most the quotient of two positive numbers. -/
def logQuotient (num den : Nat) : Int :=
  let l : Int := (num.log2 : Int) - (den.log2 : Int)
  if den * powerOfTwo l.toNat ≤ num * powerOfTwo (-l).toNat then l else l - 1

/-- The value nearest to the quotient of two positive numbers. -/
def ofQuotient (negative : Bool) (num den : Nat) : Binary64 :=
  let e := max (-1074) (logQuotient num den - 52)
  let s := roundQuotient (num * powerOfTwo (-e).toNat) (den * powerOfTwo e.toNat)
  let (s, e) := if s = powerOfTwo 53 then (powerOfTwo 52, e + 1) else (s, e)
  if 971 < e then .infinity negative else .finite negative s e

/-- The value nearest to a decimal.  A decimal of `n` digits before the point, or with zeros there, is past every value
from `n = 311` on and nearer to zero than to any other value below `n = -329`, so that the powers of ten stay small. -/
def ofDecimal (d : Decimal) : Binary64 :=
  let point := ((Nat.toDigits 10 d.digits).length : Int) + d.exponent
  if d.digits = 0 || point < -329 then zero d.negative
  else if 310 < point then .infinity d.negative
  else ofQuotient d.negative (d.digits * powerOfTen d.exponent.toNat) (powerOfTen (-d.exponent).toNat)

/-- The value of a numeral, the words for infinity included; any other text denotes no number. -/
def ofText (t : Text) : Binary64 :=
  match Decimal.read? t with
  | some d => ofDecimal d
  | none =>
    let (negative, word) := Decimal.splitSign t
    if word = Text.ofString "Infinity" then .infinity negative else .nan

end Binary64
end Cddl
