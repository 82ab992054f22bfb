import Cddl.Proofs.Binary64.Canonical
import Cddl.Proofs.Binary64.ReadBack
import Mathlib.Tactic.Linarith
/-!
# The decimals that numbers are written as

A finite number is written as one decimal, and the value of the decimal tells which number it is (`eq_of_written`); only
the two zeros share theirs.
-/
namespace Cddl

/-! ## Decimals with a sign -/

namespace Decimal

variable {d d' : Decimal}

/-- The number that a decimal denotes. -/
def signed (d : Decimal) : ℚ := if d.negative then -d.value else d.value

/-- A decimal that is no negative zero. -/
def Plain (d : Decimal) : Prop := d.digits = 0 → d.negative = false

theorem value_nonneg (d : Decimal) : 0 ≤ d.value := mul_nonneg (Nat.cast_nonneg _) (zpow_nonneg (by norm_num) _)

theorem signed_eq {negative : Bool} (sign : d.negative = negative) (h : d.value = d'.value) :
    d.signed = { d' with negative }.signed := by
  unfold signed
  rw [sign, h]
  rfl

/-- Nothing is both above and below zero. -/
theorem Plain.not_opposite (hd : d.Plain) (minus : d.negative = true) (h : -d.value = d'.value) : False := by
  have zero : d.value = 0 := by linarith only [value_nonneg d, value_nonneg d', h]
  have none : d.digits = 0 := by
    by_contra some
    exact value_ne_zero some zero
  rw [hd none] at minus
  cases minus

/-- What a decimal denotes is its sign and its value, a negative zero apart. -/
theorem Plain.signed_inj (hd : d.Plain) (hd' : d'.Plain) (h : d.signed = d'.signed) :
    d.negative = d'.negative ∧ d.value = d'.value := by
  unfold signed at h
  cases sign : d.negative <;> cases sign' : d'.negative <;> simp only [sign, sign', if_true, Bool.false_eq_true,
    if_false] at h
  · exact ⟨rfl, h⟩
  · exact (hd'.not_opposite sign' h.symm).elim
  · exact (hd.not_opposite sign h).elim
  · exact ⟨rfl, neg_injective h⟩

/-- An integer is written as a numeral that denotes it. -/
theorem read?_ofInt (n : Int) : ∃ d, read? (Text.ofInt n) = some d ∧ d.signed = n := by
  have digits : Text.AllDigits (Text.ofNat n.natAbs) := fun _ h => Text.isDigit_of_mem_ofNat h
  have read (negative : Bool) := read?_parts negative digits (List.forall_mem_nil _) (Text.ofNat_ne_nil _) none
  have text : Text.ofInt n = signText (n < 0) ++ (Text.ofNat n.natAbs ++ (fractionText [] ++ powerText none)) := by
    have tail : fractionText [] ++ powerText none = [] := rfl
    rw [tail, List.append_nil, Text.ofInt, signText]
    by_cases h : n < 0
    · simp only [h, if_true, decide_true]
      rfl
    · simp only [h, if_false, decide_false]
      rfl
  refine ⟨_, text ▸ read (n < 0), ?_⟩
  simp only [signed, value, List.append_nil, Text.toNat_ofNat, Option.getD_none, List.length_nil, Nat.cast_zero,
    sub_zero, zpow_zero, mul_one, decide_eq_true_iff]
  split
  · rw [← Int.cast_natCast, Int.ofNat_natAbs_of_nonpos (by omega), Int.cast_neg, neg_neg]
  · rw [← Int.cast_natCast, Int.natAbs_of_nonneg (by omega)]

end Decimal

namespace Binary64

variable {x y : Binary64} {d d' : Decimal}

/-! ## The decimal of a number -/

def isFinite : Binary64 → Bool
  | .finite .. => true
  | _ => false

/-- The decimal that a finite number is written as; the zeros share theirs. -/
def written? : Binary64 → Option Decimal
  | .finite negative significand exponent =>
    some (if significand = 0 then ⟨false, 0, 0⟩ else { shortest significand exponent with negative })
  | _ => none

theorem exists_written (h : x.isFinite = true) : ∃ d, x.written? = some d := by
  cases x with
  | nan | infinity => cases h
  | finite => exact ⟨_, rfl⟩

theorem toText_zero (negative : Bool) (exponent : Int) : toText (finite negative 0 exponent) = "0" := rfl

theorem toText_eq (negative : Bool) {significand : Nat} (exponent : Int) (some : significand ≠ 0) :
    toText (finite negative significand exponent) =
      Decimal.signText negative ++ decimalText (shortest significand exponent) := by
  unfold toText
  simp only [if_neg some]
  cases negative <;> rfl

/-- The text of a number is a numeral for its decimal. -/
theorem read?_toText (h : x.written? = some d) : ∃ d', Decimal.read? x.toText = some d' ∧ d'.signed = d.signed := by
  cases x with
  | nan | infinity => cases h
  | finite negative significand exponent =>
    cases h
    by_cases none : significand = 0
    · subst none
      exact ⟨⟨false, 0, 0⟩, by rw [toText_zero]; decide, rfl⟩
    · obtain ⟨d', read, sign, value⟩ := read?_decimalText negative (digits_shortest_ne_zero exponent none)
      exact ⟨d', by rw [toText_eq negative exponent none, read], by rw [if_neg none, Decimal.signed_eq sign value]⟩

theorem plain_of_written (h : x.written? = some d) : d.Plain := by
  cases x with
  | nan | infinity => cases h
  | finite negative significand exponent =>
    cases h
    split
    · exact fun _ => rfl
    · rename_i some
      exact fun none => absurd none (digits_shortest_ne_zero exponent some)

theorem ofDecimal_written (hx : x.Canonical) (signed : x ≠ zero true) (h : x.written? = some d) : ofDecimal d = x := by
  cases x with
  | nan | infinity => cases h
  | finite negative significand exponent =>
    cases h
    by_cases none : significand = 0
    · subst none
      rcases hx.isZero with zero | zero
      · exact absurd zero signed
      · rw [if_pos rfl, zero]
        decide
    · have hx' : (finite false significand exponent).Canonical := hx
      rw [if_neg none, ← withSign_ofDecimal, (ofDecimal_shortest hx' none).2]
      rfl

/-- **The value of the decimal that is written for a number tells which number it is.** -/
theorem eq_of_written (hx : x.Canonical) (hy : y.Canonical) (signed : x ≠ zero true) (signed' : y ≠ zero true)
    (h : x.written? = some d) (h' : y.written? = some d') (same : d.signed = d'.signed) : x = y := by
  obtain ⟨sign, value⟩ := (plain_of_written h).signed_inj (plain_of_written h') same
  rw [← ofDecimal_written hx signed h, ofDecimal_congr sign value, ofDecimal_written hy signed' h']

end Binary64
end Cddl
