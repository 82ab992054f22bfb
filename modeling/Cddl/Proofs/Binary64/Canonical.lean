import Cddl.Proofs.Binary64.Value
/-!
# Numbers that are read are written in one way

What a decimal is rounded to has a significand of the right size, so that no text denotes a number in a form that
another text would not (`canonical_ofText`).
-/
namespace Cddl.Binary64

variable {num den a b k : Nat}

/-! ## Rounding -/

theorem le_roundQuotient (hb : 0 < b) (h : k * b ≤ a) : k ≤ roundQuotient a b := by
  have whole : k ≤ a / b := (Nat.le_div_iff_mul_le hb).2 h
  unfold roundQuotient
  simp only []
  split
  · exact Nat.le_succ_of_le whole
  · exact whole

/-- A quotient that is at most a whole number is not rounded past it. -/
theorem roundQuotient_le (hb : 0 < b) (h : a ≤ k * b) : roundQuotient a b ≤ k := by
  have whole : a / b ≤ k := Nat.div_le_of_le_mul (Nat.mul_comm k b ▸ h)
  unfold roundQuotient
  simp only []
  split
  · rename_i up
    refine Nat.lt_of_le_of_ne whole fun exact => ?_
    have split := Nat.div_add_mod a b
    rw [exact, Nat.mul_comm] at split
    omega
  · exact whole

/-! ## The nearest value -/

/-- The quotient in units of a power of two lies between two whole numbers if the quotient lies between their powers. -/
theorem scaled_bounds (hden : den ≠ 0) (e : Int) {m : Nat} :
    ((2 : ℚ) ^ (e + m) ≤ num / den →
      powerOfTwo m * (den * powerOfTwo e.toNat) ≤ num * powerOfTwo (-e).toNat) ∧
    ((num / den : ℚ) < 2 ^ (e + m) →
      num * powerOfTwo (-e).toNat ≤ powerOfTwo m * (den * powerOfTwo e.toNat)) := by
  have positive : (0 : ℚ) < den := Nat.cast_pos.2 (Nat.pos_of_ne_zero hden)
  have power : (2 : ℚ) ^ (e + m) = powerOfTwo m * powerOfTwo e.toNat / powerOfTwo (-e).toNat := by
    rw [zpow_add₀ two_ne_zero, zpow_eq_div, zpow_natCast, cast_powerOfTwo, cast_powerOfTwo, cast_powerOfTwo]
    ring
  have unit : (0 : ℚ) < powerOfTwo (-e).toNat := Nat.cast_pos.2 (powerOfTwo_pos _)
  rw [power]
  constructor
  · intro h
    rw [div_le_div_iff₀ unit positive] at h
    have := (by exact_mod_cast h :
      powerOfTwo m * powerOfTwo e.toNat * den ≤ num * powerOfTwo (-e).toNat)
    rwa [Nat.mul_assoc, Nat.mul_comm _ den] at this
  · intro h
    rw [div_lt_div_iff₀ positive unit] at h
    have := (by exact_mod_cast h :
      num * powerOfTwo (-e).toNat < powerOfTwo m * powerOfTwo e.toNat * den)
    rw [Nat.mul_assoc, Nat.mul_comm _ den] at this
    exact this.le

theorem canonical_ofQuotient (negative : Bool) (hnum : num ≠ 0) (hden : den ≠ 0) :
    (ofQuotient negative num den).Canonical := by
  obtain ⟨low, high⟩ := logQuotient_spec hnum hden
  unfold ofQuotient
  simp only []
  generalize place : max (-1074) (logQuotient num den - 52) = e
  have unit : 0 < den * powerOfTwo e.toNat := Nat.mul_pos (Nat.pos_of_ne_zero hden) (powerOfTwo_pos _)
  have most : roundQuotient (num * powerOfTwo (-e).toNat) (den * powerOfTwo e.toNat) ≤ powerOfTwo 53 := by
    refine roundQuotient_le unit ((scaled_bounds hden e).2 (high.trans_le ?_))
    exact zpow_le_zpow_right₀ one_le_two (by omega)
  have least : powerOfTwo 52 ≤ roundQuotient (num * powerOfTwo (-e).toNat) (den * powerOfTwo e.toNat) ∨ e = -1074 := by
    by_cases bottom : e = -1074
    · exact .inr bottom
    · refine .inl (le_roundQuotient unit ((scaled_bounds hden e).1 (le_trans ?_ low)))
      exact zpow_le_zpow_right₀ one_le_two (by omega)
  generalize roundQuotient (num * powerOfTwo (-e).toNat) (den * powerOfTwo e.toNat) = s at most least
  by_cases top : s = powerOfTwo 53
  · simp only [if_pos top]
    split
    · trivial
    · exact ⟨by decide, by omega, by omega, .inl (Nat.le_refl _)⟩
  · simp only [if_neg top]
    split
    · trivial
    · exact ⟨Nat.lt_of_le_of_ne most top, by omega, by omega, least⟩

theorem canonical_zero (negative : Bool) : (zero negative).Canonical := by
  refine ⟨by decide, ?_, ?_, .inr rfl⟩ <;> decide

theorem canonical_ofDecimal (d : Decimal) : (ofDecimal d).Canonical := by
  rw [ofDecimal_eq]
  split
  · exact canonical_zero _
  · rename_i some
    split
    · trivial
    · exact canonical_ofQuotient _ (Nat.mul_ne_zero (fun h => some (.inl h)) (powerOfTen_pos _).ne')
        (powerOfTen_pos _).ne'

/-- **Whatever a text is read as, the number is in the one form that it is written in.** -/
theorem canonical_ofText (t : Text) : (ofText t).Canonical := by
  unfold ofText
  split
  · exact canonical_ofDecimal _
  · simp only []
    split <;> trivial

end Cddl.Binary64
