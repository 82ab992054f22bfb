import Cddl.Proofs.Binary64.Value
/-!
# Numbers that are written and read back

What a number is written as is read as the number (`ofText_toText`), so no two numbers are written alike
(`toText_injective`); only the two zeros share a text.
-/
namespace Cddl

/-! ## Reading what is laid out -/

def Text.AllDigits (t : Text) : Prop := ∀ u ∈ t, u.isDigit = true

namespace Decimal

variable {ws fs tail : Text}

/-- Digits up to a unit that is none. -/
theorem span_digits (hws : ws.AllDigits) (stop : ∀ u ∈ tail.head?, u.isDigit = false) :
    (ws ++ tail).takeWhile CodeUnit.isDigit = ws ∧ (ws ++ tail).dropWhile CodeUnit.isDigit = tail := by
  rw [List.takeWhile_append_of_pos hws, List.dropWhile_append_of_pos hws]
  cases tail with
  | nil => exact ⟨List.append_nil ws, rfl⟩
  | cons u r =>
    have none : ¬ u.isDigit = true := by rw [stop u rfl]; exact Bool.false_ne_true
    rw [List.takeWhile_cons_of_neg none, List.dropWhile_cons_of_neg none]
    exact ⟨List.append_nil ws, rfl⟩

/-- A point and the digits behind it, where there are any. -/
def fractionText (fs : Text) : Text := if fs = [] then [] else "." ++ fs

/-- An exponent, where there is one. -/
def powerText (n : Option Int) : Text := (n.map Binary64.exponentText).getD []

def signText (negative : Bool) : Text := if negative then "-" else ""

theorem splitSign_signText (negative : Bool) (hws : ws.AllDigits) (some : ws ≠ []) (tail : Text) :
    splitSign (signText negative ++ (ws ++ tail)) = (negative, ws ++ tail) := by
  obtain ⟨u, r, rfl⟩ := List.exists_cons_of_ne_nil some
  have digit := hws u List.mem_cons_self
  have minus : u ≠ CodeUnit.ofChar '-' := by rintro rfl; exact absurd digit (by decide)
  have plus : u ≠ CodeUnit.ofChar '+' := by rintro rfl; exact absurd digit (by decide)
  cases negative with
  | false =>
    show splitSign (u :: (r ++ tail)) = _
    rw [splitSign, if_neg minus, if_neg plus]
    rfl
  | true => rfl

theorem readExponent_of_sign {sign : CodeUnit} (negative : Bool) (n : Nat)
    (signed : splitSign (sign :: Text.ofNat n) = (negative, Text.ofNat n)) :
    readExponent (sign :: Text.ofNat n) = some (if negative then -(n : Int) else n) := by
  have all : (Text.ofNat n).all CodeUnit.isDigit = true := List.all_eq_true.2 fun _ h => Text.isDigit_of_mem_ofNat h
  have some : (Text.ofNat n ≠ [] && (Text.ofNat n).all CodeUnit.isDigit) = true := by
    rw [all, Bool.and_true, decide_eq_true_iff]
    exact Text.ofNat_ne_nil n
  unfold readExponent
  simp only [signed, some, if_true, Text.toNat_ofNat]

theorem readExponent_exponentText (n : Int) : ∃ r, Binary64.exponentText n = CodeUnit.ofChar 'e' :: r ∧
    readExponent r = some n := by
  have minus : Text.ofString "e-" = [CodeUnit.ofChar 'e', CodeUnit.ofChar '-'] := by decide
  have plus : Text.ofString "e+" = [CodeUnit.ofChar 'e', CodeUnit.ofChar '+'] := by decide
  unfold Binary64.exponentText
  split
  · refine ⟨CodeUnit.ofChar '-' :: Text.ofNat n.natAbs, by rw [minus]; rfl, ?_⟩
    rw [readExponent_of_sign true n.natAbs rfl, if_pos rfl, Option.some.injEq]
    omega
  · refine ⟨CodeUnit.ofChar '+' :: Text.ofNat n.natAbs, by rw [plus]; rfl, ?_⟩
    rw [readExponent_of_sign false n.natAbs rfl, if_neg Bool.false_ne_true, Option.some.injEq]
    omega

theorem head_powerText (n : Option Int) :
    ∀ u ∈ (powerText n).head?, u.isDigit = false ∧ u ≠ CodeUnit.ofChar '.' := by
  cases n with
  | none => simp [powerText]
  | some n =>
    obtain ⟨r, text, -⟩ := readExponent_exponentText n
    simp only [powerText, Option.map_some, Option.getD_some, text, List.head?_cons, Option.mem_some_iff]
    rintro u rfl
    decide

/-- A numeral is read to its parts. -/
theorem read?_parts (negative : Bool) (hws : ws.AllDigits) (hfs : fs.AllDigits) (present : ws ≠ []) (n : Option Int) :
    read? (signText negative ++ (ws ++ (fractionText fs ++ powerText n))) =
      some ⟨negative, Text.toNat 10 (ws ++ fs), n.getD 0 - fs.length⟩ := by
  have stop := head_powerText n
  have dot : Text.ofString "." = [CodeUnit.ofChar '.'] := by decide
  have sign := splitSign_signText negative hws present (fractionText fs ++ powerText n)
  by_cases none : fs = []
  · subst none
    obtain ⟨whole, rest⟩ := span_digits hws fun u hu => (stop u hu).1
    simp only [fractionText, if_true, List.nil_append] at sign ⊢
    unfold read?
    simp only [sign, whole, rest]
    cases n with
    | none => simp [powerText, present]
    | some n =>
      obtain ⟨r, text, reads⟩ := readExponent_exponentText n
      have split : powerText (some n) = CodeUnit.ofChar 'e' :: r := text
      have other : CodeUnit.ofChar 'e' ≠ CodeUnit.ofChar '.' := by decide
      simp [split, present, other, reads]
  · have behind : fractionText fs ++ powerText n = CodeUnit.ofChar '.' :: (fs ++ powerText n) := by
      rw [fractionText, if_neg none, dot]
      rfl
    rw [behind] at sign ⊢
    have point : ∀ u ∈ (CodeUnit.ofChar '.' :: (fs ++ powerText n)).head?, u.isDigit = false := by
      rintro u ⟨⟩
      decide
    obtain ⟨whole, rest⟩ := span_digits hws point
    obtain ⟨inner, last⟩ := span_digits hfs fun u hu => (stop u hu).1
    unfold read?
    simp only [sign, whole, rest, if_true, inner, last]
    cases n with
    | none => simp [powerText, present]
    | some n =>
      obtain ⟨r, text, reads⟩ := readExponent_exponentText n
      have split : powerText (some n) = CodeUnit.ofChar 'e' :: r := text
      simp [split, present, reads]

end Decimal

/-! ## Laying out -/

namespace Text

variable {ds : Text}

theorem toNat_append_zeros (ds : Text) (n : Nat) : toNat 10 (ds ++ Binary64.zeros n) = toNat 10 ds * 10 ^ n := by
  induction n with
  | zero => rw [Binary64.zeros, List.replicate_zero, List.append_nil, Nat.pow_zero, Nat.mul_one]
  | succ n ih =>
    have last : Binary64.zeros (n + 1) = Binary64.zeros n ++ [CodeUnit.ofChar '0'] := List.replicate_succ'
    rw [last, ← List.append_assoc, toNat_append, ih, List.foldl_cons, List.foldl_nil, Nat.pow_succ, ← Nat.mul_assoc]
    rfl

theorem toNat_zeros_append (n : Nat) (ds : Text) : toNat 10 (Binary64.zeros n ++ ds) = toNat 10 ds := by
  have zero : toNat 10 (Binary64.zeros n) = 0 := by
    have := toNat_append_zeros [] n
    rwa [List.nil_append, show toNat 10 [] = 0 from rfl, Nat.zero_mul] at this
  rw [toNat_append, zero]
  rfl

theorem allDigits_zeros (n : Nat) : (Binary64.zeros n).AllDigits := fun u hu => by
  rw [(List.mem_replicate.1 hu).2]
  decide

theorem AllDigits.append {s t : Text} (hs : s.AllDigits) (ht : t.AllDigits) : (s ++ t).AllDigits :=
  List.forall_mem_append.2 ⟨hs, ht⟩

theorem AllDigits.take (h : ds.AllDigits) (n : Nat) : AllDigits (ds.take n) := fun u hu => h u (List.mem_of_mem_take hu)

theorem AllDigits.drop (h : ds.AllDigits) (n : Nat) : AllDigits (ds.drop n) := fun u hu => h u (List.mem_of_mem_drop hu)

end Text

namespace Binary64

open Decimal (fractionText powerText signText read?_parts)

/-- Digits are laid out as a numeral, and the place of the point is what they are read with. -/
theorem layOut_parts {ds : Text} (digits : ds.AllDigits) (present : ds ≠ []) (point : Int) :
    ∃ (ws fs : Text) (n : Option Int), ws.AllDigits ∧ fs.AllDigits ∧ ws ≠ [] ∧
      layOut ds point = ws ++ (fractionText fs ++ powerText n) ∧
        (Text.toNat 10 (ws ++ fs) : ℚ) * 10 ^ (n.getD 0 - fs.length : Int) =
          Text.toNat 10 ds * 10 ^ (point - ds.length : Int) := by
  have none : Text.AllDigits [] := fun u hu => absurd hu List.not_mem_nil
  have dot : Text.ofString "." = [CodeUnit.ofChar '.'] := by decide
  have low : Text.ofString "0." = [CodeUnit.ofChar '0', CodeUnit.ofChar '.'] := by decide
  have length : 0 < ds.length := List.length_pos_iff.2 present
  unfold layOut
  simp only []
  split
  case isTrue whole =>
    refine ⟨ds ++ zeros (point - ds.length).toNat, [], .none, digits.append (Text.allDigits_zeros _), none,
      List.append_ne_nil_of_left_ne_nil present _, by simp [fractionText, powerText], ?_⟩
    have places : point - ds.length = ((point - ds.length).toNat : Int) := by omega
    rw [List.append_nil, Text.toNat_append_zeros, places, zpow_natCast]
    simp
  split
  case isTrue inside =>
    have less : point.toNat < ds.length := by omega
    have behind : ds.drop point.toNat ≠ [] := List.ne_nil_of_length_pos (by rw [List.length_drop]; omega)
    refine ⟨ds.take point.toNat, ds.drop point.toNat, .none, digits.take _, digits.drop _,
      List.ne_nil_of_length_pos (by rw [List.length_take]; omega), ?_, ?_⟩
    · simp [fractionText, powerText, behind]
    · rw [List.take_append_drop, List.length_drop]
      congr 2
      simp only [Option.getD_none]
      omega
  split
  case isTrue near =>
    have behind : zeros (-point).toNat ++ ds ≠ [] := List.append_ne_nil_of_right_ne_nil _ present
    refine ⟨zeros 1, zeros (-point).toNat ++ ds, .none, Text.allDigits_zeros 1,
      (Text.allDigits_zeros _).append digits, List.cons_ne_nil _ _, ?_, ?_⟩
    · rw [low, fractionText, if_neg behind, dot, List.append_assoc]
      simp [powerText, zeros]
    · rw [Text.toNat_zeros_append, Text.toNat_zeros_append, List.length_append, zeros, List.length_replicate]
      congr 2
      simp only [Option.getD_none, Nat.cast_add]
      omega
  split
  case isTrue one =>
    refine ⟨ds, [], some (point - 1), digits, none, present, by simp [fractionText, powerText], ?_⟩
    rw [List.append_nil]
    congr 2
    simp only [Option.getD_some, List.length_nil]
    omega
  case isFalse more =>
    have behind : ds.drop 1 ≠ [] := List.ne_nil_of_length_pos (by rw [List.length_drop]; omega)
    refine ⟨ds.take 1, ds.drop 1, some (point - 1), digits.take 1, digits.drop 1,
      List.ne_nil_of_length_pos (by rw [List.length_take]; omega), ?_, ?_⟩
    · rw [fractionText, if_neg behind]
      simp only [powerText, Option.map_some, Option.getD_some, List.append_assoc]
    · rw [List.take_append_drop, List.length_drop]
      congr 2
      simp only [Option.getD_some]
      omega

/-- The digits that are kept of some text, and the zeros that are not. -/
theorem exists_zeros (t : Text) : ∃ n, significantDigits t ++ zeros n = t := by
  have split := List.takeWhile_append_dropWhile (p := fun u : CodeUnit => u = '0') (l := t.reverse)
  have zero : ∀ u ∈ t.reverse.takeWhile fun u : CodeUnit => u = '0', u = CodeUnit.ofChar '0' := fun u hu =>
    of_decide_eq_true (List.all_eq_true.1 List.all_takeWhile u hu)
  refine ⟨(t.reverse.takeWhile fun u : CodeUnit => u = '0').length, ?_⟩
  have back := congrArg List.reverse split
  rw [List.reverse_append, List.reverse_reverse, List.eq_replicate_of_mem zero, List.reverse_replicate] at back
  exact back

/-- A decimal is written as a numeral of its value. -/
theorem read?_decimalText (negative : Bool) {d : Decimal} (some : d.digits ≠ 0) :
    ∃ d' : Decimal, Decimal.read? (signText negative ++ decimalText d) = .some d' ∧ d'.negative = negative ∧
      d'.value = d.value := by
  obtain ⟨u, mem, digit, hu⟩ := Text.exists_mem_ofNat some
  have present : significantDigits (Text.ofNat d.digits) ≠ [] := List.ne_nil_of_mem (mem_significantDigits mem hu)
  have digits : Text.AllDigits (significantDigits (Text.ofNat d.digits)) := fun u hu =>
    Text.isDigit_of_mem_ofNat (mem_of_mem_significantDigits hu)
  obtain ⟨zeros, split⟩ := exists_zeros (Text.ofNat d.digits)
  obtain ⟨ws, fs, n, hws, hfs, whole, text, value⟩ :=
    layOut_parts digits present ((Text.ofNat d.digits).length + d.exponent)
  refine ⟨⟨negative, Text.toNat 10 (ws ++ fs), n.getD 0 - fs.length⟩, ?_, rfl, ?_⟩
  · unfold decimalText
    simp only [text]
    exact read?_parts negative hws hfs whole n
  · have number : d.digits = Text.toNat 10 (significantDigits (Text.ofNat d.digits)) * 10 ^ zeros := by
      rw [← Text.toNat_append_zeros, split, Text.toNat_ofNat]
    have length : (Text.ofNat d.digits).length = (significantDigits (Text.ofNat d.digits)).length + zeros := by
      have := congrArg List.length split
      rw [List.length_append, Binary64.zeros, List.length_replicate] at this
      exact this.symm
    have place : ((Text.ofNat d.digits).length + d.exponent : Int) - (significantDigits (Text.ofNat d.digits)).length =
        zeros + d.exponent := by omega
    rw [place, zpow_add₀ (by norm_num), zpow_natCast, ← mul_assoc] at value
    rw [Decimal.value, value, Decimal.value]
    congr 1
    exact_mod_cast number.symm

/-! ## Numbers -/

variable {x y : Binary64} {d : Decimal} {significand : Nat} {exponent : Int}

/-- A number with a sign of its own in the place of the one that it has. -/
def withSign (negative : Bool) : Binary64 → Binary64
  | .nan => .nan
  | .infinity _ => .infinity negative
  | .finite _ significand exponent => .finite negative significand exponent

theorem withSign_ofQuotient (negative sign : Bool) (num den : Nat) :
    (ofQuotient sign num den).withSign negative = ofQuotient negative num den := by
  unfold ofQuotient
  simp only []
  generalize max (-1074) (logQuotient num den - 52) = e
  generalize roundQuotient (num * powerOfTwo (-e).toNat) (den * powerOfTwo e.toNat) = s
  generalize (if s = powerOfTwo 53 then (powerOfTwo 52, e + 1) else (s, e)) = parts
  split <;> rfl

/-- The sign of a decimal is the sign of the number, and has no part in the rest of it. -/
theorem withSign_ofDecimal (negative : Bool) (d : Decimal) :
    (ofDecimal d).withSign negative = ofDecimal { d with negative } := by
  have point : Decimal.point { d with negative } = d.point := rfl
  rw [ofDecimal_eq, ofDecimal_eq, point]
  by_cases tiny : d.digits = 0 ∨ d.point < -329
  · rw [if_pos tiny, if_pos tiny]
    rfl
  by_cases huge : 310 < d.point
  · rw [if_neg tiny, if_neg tiny, if_pos huge, if_pos huge]
    rfl
  · rw [if_neg tiny, if_neg tiny, if_neg huge, if_neg huge]
    exact withSign_ofQuotient _ _ _ _

/-- **The shortest decimal is read back.** -/
theorem ofDecimal_shortest (hx : (finite false significand exponent).Canonical) (some : significand ≠ 0) :
    (shortest significand exponent).negative = false ∧
      ofDecimal (shortest significand exponent) = finite false significand exponent := by
  rcases shortest_cases significand exponent with ⟨reads, unsigned⟩ | exactly
  · exact ⟨unsigned, reads⟩
  · rw [exactly]
    refine ⟨rfl, ofDecimal_exact hx some ?_⟩
    have five (n : Nat) : ((Nat.pow 5 n : Nat) : ℚ) = 5 ^ n := Nat.cast_pow 5 n
    rw [Decimal.value, Nat.cast_mul, Nat.cast_mul, five, cast_powerOfTwo]
    rcases Int.le_total 0 exponent with whole | fraction
    · obtain ⟨n, rfl⟩ := Int.eq_ofNat_of_zero_le whole
      simp
    · obtain ⟨n, hn⟩ := Int.eq_ofNat_of_zero_le (Int.neg_nonneg_of_nonpos fraction)
      obtain rfl : exponent = -n := by omega
      have ten : (10 : ℚ) = 5 * 2 := by norm_num
      have whole : (-(n : Int)).toNat = 0 := by omega
      rw [min_eq_left fraction, whole, Int.neg_neg, Int.toNat_natCast, ten, mul_zpow]
      simp only [zpow_neg, zpow_natCast, pow_zero, mul_one]
      field_simp

/-- **A number is read back from its text.**  The text of a zero has no sign. -/
theorem ofText_toText (hx : x.Canonical) (signed : x ≠ zero true) : ofText x.toText = x := by
  cases x with
  | nan => decide
  | infinity negative => cases negative <;> decide
  | finite negative significand exponent =>
    by_cases some : significand = 0
    · subst some
      rcases hx.isZero with h | h
      · exact absurd h signed
      · rw [h]
        decide
    · have hx' : (finite false significand exponent).Canonical := hx
      obtain ⟨unsigned, reads⟩ := ofDecimal_shortest hx' some
      obtain ⟨d, read, sign, value⟩ := read?_decimalText negative (digits_shortest_ne_zero exponent some)
      have text : toText (finite negative significand exponent) =
          signText negative ++ decimalText (shortest significand exponent) := by
        unfold toText
        simp only [if_neg some]
        cases negative <;> rfl
      unfold ofText
      rw [text, read]
      simp only []
      calc ofDecimal d
          = ofDecimal { shortest significand exponent with negative } := ofDecimal_congr sign value
        _ = (ofDecimal (shortest significand exponent)).withSign negative := (withSign_ofDecimal _ _).symm
        _ = finite negative significand exponent := by rw [reads]; rfl

/-- No two numbers have one text, the zeros apart. -/
theorem toText_injective (hx : x.Canonical) (hy : y.Canonical) (nonzero : ¬ x.IsZero) (nonzero' : ¬ y.IsZero)
    (h : x.toText = y.toText) : x = y := by
  rw [← ofText_toText hx fun h => nonzero (.inl h), h, ofText_toText hy fun h => nonzero' (.inl h)]

end Binary64
end Cddl
