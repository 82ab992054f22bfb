import Cddl.Proofs.Datum.KeyText
import Mathlib.Algebra.Order.Field.Power
import Mathlib.Algebra.Order.Field.Rat
import Mathlib.Tactic.FieldSimp
import Mathlib.Tactic.NormNum
import Mathlib.Tactic.Positivity
import Mathlib.Tactic.Ring
/-!
# What rounding depends on

Which number a decimal is read as depends on its value alone, however many zeros its digits end with
(`ofDecimal_congr`), and a decimal that has the value of a number is read as that number (`ofDecimal_exact`).
-/
namespace Cddl

/-! ## Powers with any exponent -/

/-- A power as the quotient of two powers, one of which is 1. -/
theorem zpow_eq_div (b : ℚ) (e : Int) : b ^ e = b ^ e.toNat / b ^ (-e).toNat := by
  obtain ⟨n, rfl | rfl⟩ := e.eq_nat_or_neg
  · simp
  · simp

theorem cast_powerOfTwo (n : Nat) : (powerOfTwo n : ℚ) = 2 ^ n := Nat.cast_pow 2 n

theorem cast_powerOfTen (n : Nat) : (powerOfTen n : ℚ) = 10 ^ n := Nat.cast_pow 10 n

theorem powerOfTwo_pos (n : Nat) : 0 < powerOfTwo n := Nat.pow_pos (by decide)

theorem powerOfTen_pos (n : Nat) : 0 < powerOfTen n := Nat.pow_pos (by decide)

/-- The whole part of a logarithm is one number only. -/
theorem log_unique {b q : ℚ} (hb : 1 < b) {l m : Int} (hl : b ^ l ≤ q ∧ q < b ^ (l + 1))
    (hm : b ^ m ≤ q ∧ q < b ^ (m + 1)) : l = m := by
  have below : l < m + 1 := (zpow_lt_zpow_iff_right₀ hb).1 (hl.1.trans_lt hm.2)
  have above : m < l + 1 := (zpow_lt_zpow_iff_right₀ hb).1 (hm.1.trans_lt hl.2)
  omega

namespace Binary64

variable {num den num' den' significand : Nat} {exponent l : Int} {negative : Bool}

/-! ## Quotients -/

theorem scaled_le_iff (hden : den ≠ 0) :
    den * powerOfTwo l.toNat ≤ num * powerOfTwo (-l).toNat ↔ (2 : ℚ) ^ l ≤ num / den := by
  have positive : (0 : ℚ) < den := Nat.cast_pos.2 (Nat.pos_of_ne_zero hden)
  rw [zpow_eq_div, div_le_div_iff₀ (by positivity) positive, ← cast_powerOfTwo, ← cast_powerOfTwo,
    ← Nat.cast_mul, ← Nat.cast_mul, Nat.cast_le, Nat.mul_comm den]

theorem logQuotient_spec (hnum : num ≠ 0) (hden : den ≠ 0) :
    (2 : ℚ) ^ logQuotient num den ≤ num / den ∧ (num / den : ℚ) < 2 ^ (logQuotient num den + 1) := by
  have positive : (0 : ℚ) < den := Nat.cast_pos.2 (Nat.pos_of_ne_zero hden)
  have low {n : Nat} (hn : n ≠ 0) : (2 : ℚ) ^ (n.log2 : Int) ≤ n := by
    rw [zpow_natCast]
    exact_mod_cast Nat.log2_self_le hn
  have high (n : Nat) : (n : ℚ) < 2 ^ ((n.log2 : Int) + 1) := by
    rw [← Nat.cast_succ, zpow_natCast]
    exact_mod_cast Nat.lt_log2_self
  have least : (2 : ℚ) ^ ((num.log2 : Int) - den.log2 - 1) ≤ num / den := by
    rw [le_div_iff₀ positive]
    calc (2 : ℚ) ^ ((num.log2 : Int) - den.log2 - 1) * den
        ≤ 2 ^ ((num.log2 : Int) - den.log2 - 1) * 2 ^ ((den.log2 : Int) + 1) :=
          mul_le_mul_of_nonneg_left (high den).le (by positivity)
      _ = 2 ^ (num.log2 : Int) := by rw [← zpow_add₀ two_ne_zero]; congr 1; omega
      _ ≤ num := low hnum
  have greatest : (num / den : ℚ) < 2 ^ ((num.log2 : Int) - den.log2 + 1) := by
    rw [div_lt_iff₀ positive]
    calc (num : ℚ) < 2 ^ ((num.log2 : Int) + 1) := high num
      _ = 2 ^ ((num.log2 : Int) - den.log2 + 1) * 2 ^ (den.log2 : Int) := by
          rw [← zpow_add₀ two_ne_zero]; congr 1; omega
      _ ≤ 2 ^ ((num.log2 : Int) - den.log2 + 1) * den := mul_le_mul_of_nonneg_left (low hden) (by positivity)
  unfold logQuotient
  simp only []
  split
  · rename_i fits
    exact ⟨(scaled_le_iff hden).1 fits, greatest⟩
  · rename_i larger
    refine ⟨least, ?_⟩
    rw [Int.sub_add_cancel]
    exact lt_of_not_ge fun fits => larger ((scaled_le_iff hden).2 fits)

theorem roundQuotient_scale (a b : Nat) {k : Nat} (hk : 0 < k) :
    roundQuotient (a * k) (b * k) = roundQuotient a b := by
  have twice : 2 * (a * k % (b * k)) = 2 * (a % b) * k := by rw [Nat.mul_mod_mul_right, Nat.mul_assoc]
  have more : b * k < 2 * (a % b) * k ↔ b < 2 * (a % b) := Nat.mul_lt_mul_right hk
  have tie : 2 * (a % b) * k = b * k ↔ 2 * (a % b) = b := Nat.mul_right_cancel_iff hk
  unfold roundQuotient
  simp only [twice, Nat.mul_div_mul_right _ _ hk, more, tie]

/-- Rounding depends on the quotient alone. -/
theorem roundQuotient_congr {a b a' b' : Nat} (hb : 0 < b) (hb' : 0 < b') (h : a * b' = a' * b) :
    roundQuotient a b = roundQuotient a' b' := by
  rw [← roundQuotient_scale a b hb', h, Nat.mul_comm b, roundQuotient_scale a' b' hb]

theorem cross_eq (hden : den ≠ 0) (hden' : den' ≠ 0) (h : (num / den : ℚ) = num' / den') : num * den' = num' * den := by
  rw [div_eq_div_iff (Nat.cast_ne_zero.2 hden) (Nat.cast_ne_zero.2 hden')] at h
  exact_mod_cast h

/-- So does the nearest value. -/
theorem ofQuotient_congr (hnum : num ≠ 0) (hden : den ≠ 0) (hnum' : num' ≠ 0) (hden' : den' ≠ 0)
    (h : (num / den : ℚ) = num' / den') : ofQuotient negative num den = ofQuotient negative num' den' := by
  have log : logQuotient num den = logQuotient num' den' :=
    log_unique one_lt_two (logQuotient_spec hnum hden) (h ▸ logQuotient_spec hnum' hden')
  have round (e : Int) : roundQuotient (num * powerOfTwo (-e).toNat) (den * powerOfTwo e.toNat) =
      roundQuotient (num' * powerOfTwo (-e).toNat) (den' * powerOfTwo e.toNat) := by
    refine roundQuotient_congr (Nat.mul_pos (Nat.pos_of_ne_zero hden) (powerOfTwo_pos _))
      (Nat.mul_pos (Nat.pos_of_ne_zero hden') (powerOfTwo_pos _)) ?_
    rw [Nat.mul_mul_mul_comm, cross_eq hden hden' h, Nat.mul_mul_mul_comm]
  unfold ofQuotient
  simp only [log, round]

/-- A quotient that is a number is read as the number. -/
theorem ofQuotient_exact (hx : (finite negative significand exponent).Canonical) (some : significand ≠ 0)
    (hnum : num ≠ 0) (hden : den ≠ 0) (h : (num / den : ℚ) = significand * 2 ^ exponent) :
    ofQuotient negative num den = finite negative significand exponent := by
  obtain ⟨small, least, greatest, normal⟩ := hx
  have log : logQuotient num den = significand.log2 + exponent := by
    refine log_unique one_lt_two (logQuotient_spec hnum hden) ?_
    have low : (2 : ℚ) ^ significand.log2 ≤ significand := by exact_mod_cast Nat.log2_self_le some
    have high : (significand : ℚ) < 2 ^ (significand.log2 + 1) := by exact_mod_cast Nat.lt_log2_self
    rw [h, add_right_comm, zpow_add₀ two_ne_zero, zpow_add₀ two_ne_zero, ← Nat.cast_succ, zpow_natCast, zpow_natCast]
    exact ⟨mul_le_mul_of_nonneg_right low (by positivity), mul_lt_mul_of_pos_right high (by positivity)⟩
  have place : max (-1074) (logQuotient num den - 52) = exponent := by
    have size : significand.log2 < 53 := (Nat.log2_lt some).2 small
    rw [log]
    rcases normal with normal | subnormal
    · have : 52 ≤ significand.log2 := (Nat.le_log2 some).2 normal
      omega
    · omega
  have exact : roundQuotient (num * powerOfTwo (-exponent).toNat) (den * powerOfTwo exponent.toNat) = significand := by
    have ratio : num * powerOfTwo (-exponent).toNat * 1 = significand * (den * powerOfTwo exponent.toNat) := by
      rw [zpow_eq_div, ← cast_powerOfTwo, ← cast_powerOfTwo, ← mul_div_assoc,
        div_eq_div_iff (Nat.cast_ne_zero.2 hden) (Nat.cast_ne_zero.2 (powerOfTwo_pos _).ne')] at h
      have := (by exact_mod_cast h : num * powerOfTwo (-exponent).toNat = significand * powerOfTwo exponent.toNat * den)
      rw [Nat.mul_one, this, Nat.mul_assoc, Nat.mul_comm den]
    rw [roundQuotient_congr (Nat.mul_pos (Nat.pos_of_ne_zero hden) (powerOfTwo_pos _)) Nat.one_pos ratio]
    simp [roundQuotient, Nat.mod_one]
  have unrounded : significand ≠ powerOfTwo 53 := Nat.ne_of_lt small
  unfold ofQuotient
  simp only [place, exact, if_neg unrounded, if_neg (Int.not_lt.2 greatest)]

end Binary64

/-! ## Decimals -/

/-- The value of a decimal without its sign. -/
def Decimal.value (d : Decimal) : ℚ := d.digits * 10 ^ d.exponent

/-- The number of digits before the point of a decimal; zeros right after the point count negatively. -/
def Decimal.point (d : Decimal) : Int := ((Nat.toDigits 10 d.digits).length : Int) + d.exponent

theorem length_toDigits {n : Nat} (hn : n ≠ 0) :
    10 ^ ((Nat.toDigits 10 n).length - 1) ≤ n ∧ n < 10 ^ (Nat.toDigits 10 n).length := by
  induction n using Nat.strongRecOn with
  | ind n ih =>
    rw [Nat.toDigits_eq_if (by decide)]
    split
    · rename_i small
      exact ⟨by simp; omega, small⟩
    · obtain ⟨least, greatest⟩ := ih (n / 10) (by omega) (by omega)
      have longer : (Nat.toDigits 10 (n / 10)).length = (Nat.toDigits 10 (n / 10)).length - 1 + 1 :=
        (Nat.sub_add_cancel (List.length_pos_iff.2 Nat.toDigits_ne_nil)).symm
      rw [List.length_append, List.length_singleton, Nat.add_sub_cancel]
      rw [longer, Nat.pow_succ] at greatest
      rw [longer]
      simp only [Nat.pow_succ] at least ⊢
      omega

namespace Decimal

variable {d d' : Decimal}

theorem value_ne_zero (h : d.digits ≠ 0) : d.value ≠ 0 :=
  mul_ne_zero (Nat.cast_ne_zero.2 h) (zpow_ne_zero _ (by norm_num))

theorem digits_eq_zero (h : d.value = d'.value) : d.digits = 0 ↔ d'.digits = 0 := by
  have zero (d : Decimal) : d.digits = 0 ↔ d.value = 0 := by
    refine ⟨fun h => ?_, fun h => ?_⟩
    · rw [value, h, Nat.cast_zero, zero_mul]
    · by_contra some
      exact value_ne_zero some h
  rw [zero, zero, h]

theorem point_spec (h : d.digits ≠ 0) : (10 : ℚ) ^ (d.point - 1) ≤ d.value ∧ d.value < 10 ^ d.point := by
  obtain ⟨least, greatest⟩ := length_toDigits h
  have positive : 0 < (Nat.toDigits 10 d.digits).length := List.length_pos_iff.2 Nat.toDigits_ne_nil
  have ten : (10 : ℚ) ≠ 0 := by norm_num
  have split : d.point - 1 = (((Nat.toDigits 10 d.digits).length - 1 : Nat) : Int) + d.exponent := by
    unfold point
    omega
  constructor
  · rw [split, zpow_add₀ ten, zpow_natCast, value]
    exact mul_le_mul_of_nonneg_right (by exact_mod_cast least) (by positivity)
  · rw [point, zpow_add₀ ten, zpow_natCast, value]
    exact mul_lt_mul_of_pos_right (by exact_mod_cast greatest) (by positivity)

theorem point_congr (some : d.digits ≠ 0) (some' : d'.digits ≠ 0) (h : d.value = d'.value) : d.point = d'.point := by
  have first := point_spec some
  have second := point_spec some'
  rw [← h] at second
  have ends (n : Int) : n - 1 + 1 = n := Int.sub_add_cancel n 1
  have same := log_unique (b := 10) (q := d.value) (l := d.point - 1) (m := d'.point - 1) (by norm_num)
    (by rw [ends]; exact first) (by rw [ends]; exact second)
  omega

/-- The quotient that is rounded for a decimal. -/
theorem value_eq_div (d : Decimal) :
    d.value = ((d.digits * powerOfTen d.exponent.toNat : Nat) : ℚ) / (powerOfTen (-d.exponent).toNat : Nat) := by
  rw [value, zpow_eq_div, Nat.cast_mul, cast_powerOfTen, cast_powerOfTen, mul_div_assoc]

end Decimal

namespace Binary64

variable {d d' : Decimal} {significand : Nat} {exponent : Int}

theorem ofDecimal_eq (d : Decimal) : ofDecimal d =
    if d.digits = 0 ∨ d.point < -329 then zero d.negative
    else if 310 < d.point then .infinity d.negative
    else ofQuotient d.negative (d.digits * powerOfTen d.exponent.toNat) (powerOfTen (-d.exponent).toNat) := by
  unfold ofDecimal Decimal.point
  simp only [Bool.or_eq_true, decide_eq_true_iff]

/-- **Which number a decimal is read as depends on its value alone.** -/
theorem ofDecimal_congr (sign : d.negative = d'.negative) (h : d.value = d'.value) : ofDecimal d = ofDecimal d' := by
  have zero := Decimal.digits_eq_zero h
  rw [ofDecimal_eq, ofDecimal_eq, sign]
  by_cases none : d.digits = 0
  · rw [if_pos (.inl none), if_pos (.inl (zero.1 none))]
  have none' : d'.digits ≠ 0 := fun h => none (zero.2 h)
  have quotient : ofQuotient d'.negative (d.digits * powerOfTen d.exponent.toNat) (powerOfTen (-d.exponent).toNat) =
      ofQuotient d'.negative (d'.digits * powerOfTen d'.exponent.toNat) (powerOfTen (-d'.exponent).toNat) := by
    refine ofQuotient_congr (Nat.mul_ne_zero none (powerOfTen_pos _).ne') (powerOfTen_pos _).ne'
      (Nat.mul_ne_zero none' (powerOfTen_pos _).ne') (powerOfTen_pos _).ne' ?_
    rw [← Decimal.value_eq_div, ← Decimal.value_eq_div, h]
  simp only [Decimal.point_congr none none' h, quotient, zero]

/-- A number is neither too small nor too large for a decimal to be read as it. -/
theorem point_bounds (hx : (finite d.negative significand exponent).Canonical) (some : significand ≠ 0)
    (none : d.digits ≠ 0) (h : d.value = significand * 2 ^ exponent) : -329 ≤ d.point ∧ d.point ≤ 310 := by
  obtain ⟨small, least, greatest, -⟩ := hx
  obtain ⟨low, high⟩ := Decimal.point_spec none
  have one : (1 : ℚ) ≤ significand := by exact_mod_cast Nat.pos_of_ne_zero some
  have bound : (significand : ℚ) ≤ 2 ^ (53 : Int) := by
    have := cast_powerOfTwo 53 ▸ Nat.cast_le (α := ℚ).2 small.le
    exact_mod_cast this
  constructor
  · have wide : 2 ^ 1074 ≤ 10 ^ 330 := by decide +kernel
    have tiny : (10 : ℚ) ^ (-330 : Int) ≤ 2 ^ (-1074 : Int) := by
      rw [zpow_neg, zpow_neg]
      exact inv_anti₀ (by positivity) (by exact_mod_cast wide)
    have above : (10 : ℚ) ^ (-330 : Int) < 10 ^ d.point := by
      calc (10 : ℚ) ^ (-330 : Int) ≤ 2 ^ (-1074 : Int) := tiny
        _ ≤ 2 ^ exponent := zpow_le_zpow_right₀ one_le_two least
        _ = 1 * 2 ^ exponent := (one_mul _).symm
        _ ≤ significand * 2 ^ exponent := mul_le_mul_of_nonneg_right one (by positivity)
        _ = d.value := h.symm
        _ < 10 ^ d.point := high
    have := (zpow_lt_zpow_iff_right₀ (by norm_num : (1 : ℚ) < 10)).1 above
    omega
  · have wide : 2 ^ 1024 < 10 ^ 310 := by decide +kernel
    have huge : (2 : ℚ) ^ (1024 : Int) < 10 ^ (310 : Int) := by exact_mod_cast wide
    have below : (10 : ℚ) ^ (d.point - 1) < 10 ^ (310 : Int) := by
      calc (10 : ℚ) ^ (d.point - 1) ≤ d.value := low
        _ = significand * 2 ^ exponent := h
        _ ≤ 2 ^ (53 : Int) * 2 ^ (971 : Int) :=
          mul_le_mul bound (zpow_le_zpow_right₀ one_le_two greatest) (by positivity) (by positivity)
        _ = 2 ^ (1024 : Int) := by rw [← zpow_add₀ two_ne_zero]; norm_num
        _ < 10 ^ (310 : Int) := huge
    have := (zpow_lt_zpow_iff_right₀ (by norm_num : (1 : ℚ) < 10)).1 below
    omega

/-- **A decimal that has the value of a number is read as the number.** -/
theorem ofDecimal_exact (hx : (finite d.negative significand exponent).Canonical) (some : significand ≠ 0)
    (h : d.value = significand * 2 ^ exponent) : ofDecimal d = finite d.negative significand exponent := by
  have none : d.digits ≠ 0 := by
    intro zero
    rw [Decimal.value, zero, Nat.cast_zero, zero_mul] at h
    exact mul_ne_zero (Nat.cast_ne_zero.2 some) (zpow_ne_zero _ two_ne_zero) h.symm
  obtain ⟨low, high⟩ := point_bounds hx some none h
  rw [ofDecimal_eq, if_neg (not_or.2 ⟨none, Int.not_lt.2 low⟩), if_neg (Int.not_lt.2 high)]
  refine ofQuotient_exact hx some (Nat.mul_ne_zero none (powerOfTen_pos _).ne') (powerOfTen_pos _).ne' ?_
  rw [← Decimal.value_eq_div, h]

end Binary64
end Cddl
