import Cddl.Token.Numeral
/-!
# How much of a text a numeral takes

Every part of a numeral is a part of the text, and a text that begins with a numeral has one of a unit at least.
-/
namespace Cddl.Numeral

theorem length_radixMarks : (Text.ofString "0x").length = 2 ∧ (Text.ofString "0b").length = 2 := by decide

theorem length_dots : (Text.ofString "..").length = 2 := by decide

theorem length_ellipsis : (Text.ofString "...").length = 3 := by decide

theorem run_le (class? : CodeUnit → Bool) (s : Text) : run class? s ≤ s.length :=
  (List.takeWhile_sublist class?).length_le

theorem run_pos {class? : CodeUnit → Bool} {s : Text} (h : s.head?.any class? = true) : 1 ≤ run class? s := by
  cases s with
  | nil => cases h
  | cons u r =>
    have hu : class? u = true := h
    rw [run, List.takeWhile_cons, if_pos hu, List.length_cons]
    omega

theorem fractionLength_le (s : Text) : fractionLength s ≤ s.length := by
  unfold fractionLength
  split
  · rename_i h
    have digits := run_le CodeUnit.isDigit (s.drop 1)
    rw [Bool.and_eq_true] at h
    cases s with
    | nil => cases h.2
    | cons u r =>
      rw [List.drop_succ_cons, List.drop_zero] at digits ⊢
      rw [List.length_cons]
      omega
  · exact Nat.zero_le _

theorem exponentLength_le (s : Text) : exponentLength s ≤ s.length := by
  have digits (k : Nat) (h : startsWithDigit (s.drop k) = true) : run CodeUnit.isDigit (s.drop k) + k ≤ s.length := by
    have := run_le CodeUnit.isDigit (s.drop k)
    rw [List.length_drop] at this
    have inside : k ≤ s.length := by
      refine Decidable.byContradiction fun out => ?_
      rw [List.drop_eq_nil_of_le (by omega)] at h
      cases h
    omega
  unfold exponentLength
  split
  · split
    · exact digits 1 ‹_›
    split
    · rename_i h
      exact digits 2 (Bool.and_eq_true_iff.1 h).2
    · exact Nat.zero_le _
  · exact Nat.zero_le _

theorem readDecimal_length {s : Text} {negative : Bool} {sign n : Nat} {v : Literal}
    (digit : startsWithDigit (s.drop sign) = true) (h : readDecimal s negative sign = .literal v n) :
    sign < n ∧ n ≤ s.length := by
  have first : 1 ≤ run CodeUnit.isDigit (s.drop sign) := run_pos digit
  have whole := run_le CodeUnit.isDigit (s.drop sign)
  have fraction := fractionLength_le (s.drop (sign + run CodeUnit.isDigit (s.drop sign)))
  have exponent := exponentLength_le (s.drop (sign + run CodeUnit.isDigit (s.drop sign) +
    fractionLength (s.drop (sign + run CodeUnit.isDigit (s.drop sign)))))
  rw [List.length_drop] at whole fraction exponent
  have length : n = sign + run CodeUnit.isDigit (s.drop sign) +
      fractionLength (s.drop (sign + run CodeUnit.isDigit (s.drop sign))) +
      exponentLength (s.drop (sign + run CodeUnit.isDigit (s.drop sign) +
        fractionLength (s.drop (sign + run CodeUnit.isDigit (s.drop sign))))) := by
    unfold readDecimal at h
    simp only [] at h
    split at h <;> cases h <;> rfl
  omega

/-- The sign that a text begins with, counted. -/
def signLength (s : Text) : Nat := if s.head? = some (CodeUnit.ofChar '-') then 1 else 0

/-- A text that begins with a numeral has a digit behind the sign. -/
theorem startsWithDigit_of_startsHere {s : Text} (h : startsHere s = true) :
    startsWithDigit (s.drop (signLength s)) = true := by
  unfold startsHere at h
  unfold signLength
  rw [Bool.or_eq_true, Bool.and_eq_true, decide_eq_true_iff] at h
  split
  · rename_i minus
    refine h.elim (fun digit => ?_) fun h => h.2
    unfold startsWithDigit at digit
    rw [minus] at digit
    exact absurd digit (by decide)
  · rename_i plain
    exact h.elim id fun h => absurd h.1 plain

/-- A numeral does not begin with a dot. -/
theorem not_dots_of_startsHere {u : CodeUnit} {r t : Text} (h : startsHere (u :: r) = true) :
    ¬ Text.ofString ".." <+: u :: t := by
  have dots : Text.ofString ".." = [CodeUnit.ofChar '.', CodeUnit.ofChar '.'] := by decide
  intro two
  rw [dots] at two
  obtain ⟨rfl, _⟩ := List.cons_prefix_cons.1 two
  unfold startsHere at h
  rw [Bool.or_eq_true, Bool.and_eq_true, decide_eq_true_iff] at h
  rcases h with digit | ⟨minus, _⟩
  · have dot : CodeUnit.isDigit '.' = true := digit
    exact absurd dot (by decide)
  · exact absurd (Option.some.inj minus) (by decide)

theorem read_eq (s : Text) : read s =
    match radix? (s.drop (signLength s)) with
    | some (digit, base) =>
      if run digit (s.drop (signLength s + 2)) = 0 then .noDigits (signLength s + 2)
      else .literal (integer (s.head? = some (CodeUnit.ofChar '-'))
        (Text.toNat base ((s.drop (signLength s + 2)).take (run digit (s.drop (signLength s + 2))))))
        (signLength s + 2 + run digit (s.drop (signLength s + 2)))
    | none => readDecimal s (s.head? = some (CodeUnit.ofChar '-')) (signLength s) := by
  have sign : (if decide (s.head? = some (CodeUnit.ofChar '-')) then 1 else 0) = signLength s := by
    unfold signLength
    split <;> simp_all
  rw [← sign]
  rfl

/-- **A numeral takes a unit at least, and no more than there are.** -/
theorem read_length {s : Text} {n : Nat} {v : Literal} (starts : startsHere s = true) (h : read s = .literal v n) :
    0 < n ∧ n ≤ s.length := by
  rw [read_eq] at h
  split at h
  · rename_i digit base _
    split at h
    · cases h
    · rename_i some
      have digits := run_le digit (s.drop (signLength s + 2))
      rw [List.length_drop] at digits
      cases h
      omega
  · have := readDecimal_length (startsWithDigit_of_startsHere starts) h
    omega

/-- A range operator stands right before a numeral. -/
theorem rangeLength_spec {s : Text} (h : rangeLength s ≠ 0) :
    (rangeLength s = 2 ∨ rangeLength s = 3) ∧ Text.ofString ".." <+: s ∧
      startsHere (s.drop (rangeLength s)) = true := by
  unfold rangeLength at h ⊢
  split
  · rename_i three
    rw [if_pos three] at h
    split
    · rename_i starts
      have two : Text.ofString ".." <+: Text.ofString "..." := by decide
      exact ⟨.inr rfl, two.trans three, starts⟩
    · rename_i starts
      rw [if_neg starts] at h
      exact absurd rfl h
  · rename_i three
    rw [if_neg three] at h
    split
    · rename_i two
      rw [if_pos two] at h
      split
      · exact ⟨.inl rfl, two, ‹_›⟩
      · rename_i starts
        rw [if_neg starts] at h
        exact absurd rfl h
    · rename_i two
      rw [if_neg two] at h
      exact absurd rfl h

end Cddl.Numeral
