import Cddl.Binary64
/-!
# The shortest decimal that reads back

A finite number is written with the fewest digits that are read back as the same number, and of those with the nearest.
Every candidate is put through the reader, so what is written reads back by construction.
-/
namespace Cddl.Binary64

/-- The number of digits before the point of a positive quotient; zeros right after the point count negatively. -/
def pointOf (num den : Nat) : Int :=
  if den ≤ num then ((Nat.toDigits 10 (num / den)).length : Int)
  else
    let zeros : Nat := ((List.range 330).find? fun j => den ≤ num * powerOfTen (j + 1)).getD 0
    0 - zeros

/-- Of the two neighbours of `num / den` on the grid of multiples of `10 ^ exponent`, the nearer one that is read back
as the given number; the even one on a tie. -/
def onGrid? (target : Binary64) (num den : Nat) (exponent : Int) : Option Decimal :=
  let a := num * powerOfTen (-exponent).toNat
  let b := den * powerOfTen exponent.toNat
  let low : Decimal := ⟨false, a / b, exponent⟩
  let high : Decimal := ⟨false, a / b + 1, exponent⟩
  let r := a % b
  let highFirst := b < 2 * r ∨ (2 * r = b ∧ a / b % 2 = 1)
  (if highFirst then [high, low] else [low, high]).find? fun d => ofDecimal d = target

/-- The shortest decimal for `significand * 2 ^ exponent`, which is not zero.  Seventeen digits always suffice; the
exact expansion stands last so that none of the candidates has to be argued for. -/
def shortest (significand : Nat) (exponent : Int) : Decimal :=
  let num := significand * powerOfTwo exponent.toNat
  let den := powerOfTwo (-exponent).toNat
  let point := pointOf num den
  let target : Binary64 := .finite false significand exponent
  match (List.range 17).findSome? fun n : Nat => onGrid? target num den (point - (n + 1)) with
  | some d => d
  | none => ⟨false, num * Nat.pow 5 (-exponent).toNat, min exponent 0⟩

/-! ## Writing the digits down -/

/-- The digits without the zeros at their end. -/
def significantDigits (t : Text) : Text :=
  (t.reverse.dropWhile fun u : CodeUnit => u = '0').reverse

def zeros (n : Nat) : Text := List.replicate n (CodeUnit.ofChar '0')

def exponentText (n : Int) : Text := if n < 0 then "e-" ++ Text.ofNat n.natAbs else "e+" ++ Text.ofNat n.natAbs

/-- Digits with the point after the given number of them.  The point is written out up to 21 places to the right of the
first digit's left side and up to 5 to the left of it, and is otherwise moved behind the first digit. -/
def layOut (digits : Text) (point : Int) : Text :=
  let k : Int := digits.length
  if k ≤ point ∧ point ≤ 21 then digits ++ zeros (point - k).toNat
  else if 0 < point ∧ point ≤ 21 then digits.take point.toNat ++ "." ++ digits.drop point.toNat
  else if -6 < point ∧ point ≤ 0 then "0." ++ zeros (-point).toNat ++ digits
  else if k = 1 then digits ++ exponentText (point - 1)
  else digits.take 1 ++ "." ++ digits.drop 1 ++ exponentText (point - 1)

/-- A positive decimal in writing. -/
def decimalText (d : Decimal) : Text :=
  let all := Text.ofNat d.digits
  layOut (significantDigits all) (all.length + d.exponent)

/-- The text of a number; the zeros share theirs. -/
def toText : Binary64 → Text
  | .nan => "NaN"
  | .infinity negative => if negative then "-Infinity" else "Infinity"
  | .finite negative significand exponent =>
    if significand = 0 then "0"
    else
      let t := decimalText (shortest significand exponent)
      if negative then '-' :: t else t

end Cddl.Binary64
