import Cddl.Text
/-!
# Numerals and lists in text

What a number is written with is read back as the number, in any base that a literal may have.
-/
namespace Cddl

theorem CodeUnit.digitValue_digitChar : ∀ n < 16, (CodeUnit.ofChar n.digitChar).digitValue = n := by decide

theorem CodeUnit.isDigit_digitChar : ∀ n < 10, (CodeUnit.ofChar n.digitChar).isDigit = true := by decide

namespace Text

theorem toNat_append (base : Nat) (s t : Text) :
    toNat base (s ++ t) = t.foldl (fun n u => n * base + u.digitValue) (toNat base s) := List.foldl_append

/-- The digits of a number denote it. -/
theorem toNat_toDigits {base : Nat} (low : 1 < base) (high : base ≤ 16) (n : Nat) :
    toNat base ((Nat.toDigits base n).map CodeUnit.ofChar) = n := by
  induction n using Nat.strongRecOn with
  | ind n ih =>
    rw [Nat.toDigits_eq_if low]
    split
    · rename_i small
      rw [List.map_singleton, toNat, List.foldl_cons, List.foldl_nil, CodeUnit.digitValue_digitChar n (by omega)]
      omega
    · have less : n % base < base := Nat.mod_lt _ (by omega)
      rw [List.map_append, toNat_append, ih _ (Nat.div_lt_self (by omega) low), List.map_singleton, List.foldl_cons,
        List.foldl_nil, CodeUnit.digitValue_digitChar _ (by omega), Nat.mul_comm]
      exact Nat.div_add_mod n base

theorem toNat_ofNat (n : Nat) : toNat 10 (ofNat n) = n := toNat_toDigits (by decide) (by decide) n

theorem ofNat_injective {m n : Nat} (h : ofNat m = ofNat n) : m = n := by
  rw [← toNat_ofNat m, h, toNat_ofNat]

theorem ofNat_ne_nil (n : Nat) : ofNat n ≠ [] := by
  unfold ofNat
  rw [ne_eq, List.map_eq_nil_iff]
  exact Nat.toDigits_ne_nil

theorem isDigit_of_mem_ofNat {n : Nat} : ∀ {u : CodeUnit}, u ∈ ofNat n → u.isDigit = true := by
  unfold ofNat
  induction n using Nat.strongRecOn with
  | ind n ih =>
    intro u hu
    rw [Nat.toDigits_eq_if (by decide)] at hu
    split at hu
    · rw [List.map_singleton, List.mem_singleton] at hu
      rw [hu]
      exact CodeUnit.isDigit_digitChar n ‹_›
    · rw [List.map_append, List.mem_append, List.map_singleton, List.mem_singleton] at hu
      rcases hu with hu | rfl
      · exact ih _ (Nat.div_lt_self (by omega) (by decide)) hu
      · exact CodeUnit.isDigit_digitChar _ (Nat.mod_lt _ (by decide))

theorem ofInt_ne_nil (n : Int) : ofInt n ≠ [] := by
  unfold ofInt
  split
  · exact List.cons_ne_nil _ _
  · exact ofNat_ne_nil _

/-- A sign is no digit, so it tells the two halves of the integers apart. -/
theorem ofInt_injective {m n : Int} (h : ofInt m = ofInt n) : m = n := by
  have unsigned (k : Nat) (s : Text) (hs : (CodeUnit.ofChar '-') :: s = ofNat k) : False := by
    have := isDigit_of_mem_ofNat (hs ▸ List.mem_cons_self : CodeUnit.ofChar '-' ∈ ofNat k)
    exact absurd this (by decide)
  unfold ofInt at h
  split at h
  · split at h
    · have := ofNat_injective (List.cons.inj h).2
      omega
    · exact (unsigned _ _ h).elim
  · split at h
    · exact (unsigned _ _ h.symm).elim
    · have := ofNat_injective h
      omega

/-- Some digit of a number other than zero is not a zero. -/
theorem exists_mem_ofNat {n : Nat} (hn : n ≠ 0) : ∃ u ∈ ofNat n, u.isDigit = true ∧ u ≠ CodeUnit.ofChar '0' := by
  have value (s : Text) (h : ∀ u ∈ s, u = CodeUnit.ofChar '0') : toNat 10 s = 0 := by
    rw [List.eq_replicate_of_mem h]
    induction s.length with
    | zero => rfl
    | succ k ih => exact ih
  by_cases h : ∃ u ∈ ofNat n, u ≠ CodeUnit.ofChar '0'
  · obtain ⟨u, mem, hu⟩ := h
    exact ⟨u, mem, isDigit_of_mem_ofNat mem, hu⟩
  · have zeros := value (ofNat n) fun u hu => Decidable.byContradiction fun hne => h ⟨u, hu, hne⟩
    rw [toNat_ofNat] at zeros
    exact absurd zeros hn

/-! ## Lists -/

@[simp] theorem join_nil (separator : Text) : join separator [] = [] := rfl

@[simp] theorem join_singleton (separator t : Text) : join separator [t] = t := List.append_nil t

@[simp] theorem join_cons_cons (separator s t : Text) (ts : List Text) :
    join separator (s :: t :: ts) = s ++ (separator ++ join separator (t :: ts)) := rfl

/-- A list in text is its first part, and the others each behind a separator. -/
theorem join_cons (separator t : Text) (ts : List Text) :
    join separator (t :: ts) = t ++ ts.flatMap fun s => separator ++ s := by
  induction ts generalizing t with
  | nil => rw [join_singleton, List.flatMap_nil, List.append_nil]
  | cons s ts ih => rw [join_cons_cons, ih, List.flatMap_cons, List.append_assoc]

end Text
end Cddl
