import Cddl.Proofs.Token.Numeral
import Cddl.Token.Scan
/-!
# What a scanned token is

Which scanner a token comes from, told from its body.
-/
namespace Cddl

/-- The least index of a pattern is at most any index at which the pattern stands. -/
theorem Text.indexOf?_le {pattern : Text} : ∀ {t : Text} {n : Nat}, pattern <+: t.drop n → n ≤ t.length →
    ∃ k, indexOf? pattern t = some k ∧ k ≤ n
  | [], n, h, hn => by
    rw [List.drop_nil] at h
    exact ⟨0, by rw [indexOf?, if_pos (List.prefix_nil.1 h)], Nat.zero_le _⟩
  | u :: r, n, h, hn => by
    rw [indexOf?]
    split
    · exact ⟨0, rfl, Nat.zero_le _⟩
    · cases n with
      | zero => exact absurd h ‹_›
      | succ n =>
        obtain ⟨k, hk, le⟩ := indexOf?_le (t := r) h (Nat.le_of_succ_le_succ hn)
        exact ⟨k + 1, by rw [hk]; rfl, Nat.succ_le_succ le⟩

theorem Text.prefix_of_indexOf?_zero {pattern r : Text} {u : CodeUnit} (h : indexOf? pattern (u :: r) = some 0) :
    pattern <+: u :: r := by
  rw [indexOf?] at h
  split at h
  · assumption
  · obtain ⟨_, _, h⟩ := Option.map_eq_some_iff.1 h
    cases h

/-- A number by itself, or two around an operator. -/
def Token.Body.isNumeric : Token.Body → Bool
  | .value (.int _) | .value (.uint _) | .value (.float _) | .range .. => true
  | _ => false

/-- Numbers are read where a number begins. -/
theorem scan_numeric {u : CodeUnit} {r : Text} {body : Token.Body} {more : Nat} (h : scan u r = .token body more)
    (numeric : body.isNumeric = true) :
    Numeral.startsHere (u :: r) = true ∧ Scan.number (u :: r) = .token body more := by
  unfold scan at h
  split at h
  · unfold Scan.text at h
    split at h <;> cases h
    cases numeric
  have bytes {e : ByteEncoding} {k : Nat} (h : Scan.bytes e k r = .token body more) : False := by
    unfold Scan.bytes at h
    split at h
    · split at h <;> cases h
      cases numeric
    · cases h
  split at h
  · exact (bytes h).elim
  split at h
  · exact (bytes h).elim
  split at h
  · exact (bytes h).elim
  split at h
  · exact ⟨‹_›, h⟩
  split at h
  · cases h
    cases numeric
  · unfold Scan.mark at h
    split at h
    · cases h
      cases numeric
    split at h
    · unfold Scan.hash at h
      simp only [] at h
      split at h <;> cases h <;> cases numeric
    split at h
    · split at h <;> cases h
      cases numeric
    · cases h

/-- Two numbers around an operator are read where a number begins. -/
theorem scan_range {u : CodeUnit} {r : Text} {lower upper : Literal} {inclusive : Bool} {more : Nat}
    (h : scan u r = .token (.range lower upper inclusive) more) :
    Numeral.startsHere (u :: r) = true ∧ Scan.number (u :: r) = .token (.range lower upper inclusive) more :=
  scan_numeric h rfl

/-- The ways in which a mark is scanned. -/
theorem scan_mark {u : CodeUnit} {r : Text} {m : Mark} {more : Nat} (h : scan u r = .token (.mark m) more) :
    (m = .name ∧ u.startsName = true ∧ more = Scan.nameLength r) ∨
      (∃ t, Scan.symbol? (u :: r) = some (t, m) ∧ more = t.length - 1) ∨ (m = .hash ∧ u = '#' ∧ more = 0) ∨
      (m = .control ∧ u = '.' ∧ Scan.startsWithName r = true ∧ more = Scan.nameLength r) := by
  unfold scan at h
  split at h
  · unfold Scan.text at h
    split at h <;> cases h
  have bytes {e : ByteEncoding} {k : Nat} (h : Scan.bytes e k r = .token (.mark m) more) : False := by
    unfold Scan.bytes at h
    split at h
    · split at h <;> cases h
    · cases h
  split at h
  · exact (bytes h).elim
  split at h
  · exact (bytes h).elim
  split at h
  · exact (bytes h).elim
  split at h
  · unfold Scan.number at h
    split at h
    · cases h
    · simp only [] at h
      split at h
      · cases h
      · split at h <;> cases h
  split at h
  · cases h
    exact .inl ⟨rfl, ‹_›, rfl⟩
  · unfold Scan.mark at h
    split at h
    · rename_i t m' found
      cases h
      exact .inr (.inl ⟨t, found, rfl⟩)
    split at h
    · unfold Scan.hash at h
      simp only [] at h
      split at h <;> cases h
      exact .inr (.inr (.inl ⟨rfl, ‹_›, rfl⟩))
    split at h
    · split at h
      · cases h
        exact .inr (.inr (.inr ⟨rfl, ‹_›, ‹_›, rfl⟩))
      · cases h
    · cases h

/-- No text is scanned as the end of input. -/
theorem scan_ne_end {u : CodeUnit} {r : Text} {more : Nat} : scan u r ≠ .token (.mark .endOfInput) more := by
  intro h
  rcases scan_mark h with ⟨h, _⟩ | ⟨t, h, _⟩ | ⟨h, _⟩ | ⟨h, _⟩
  · cases h
  · have listed := List.all_eq_true.1 (by decide : Scan.symbols.all (fun p => decide (p.2 ≠ .endOfInput)) = true) _
      (List.mem_of_find?_eq_some h)
    exact absurd rfl (of_decide_eq_true listed)
  · cases h
  · cases h

/-- **The operator of a range stands inside its text.** -/
theorem indexOf?_range {u : CodeUnit} {r : Text} {lower upper : Literal} {inclusive : Bool} {more : Nat}
    (h : scan u r = .token (.range lower upper inclusive) more) :
    ∃ k, Text.indexOf? ".." (u :: r.take more) = some k ∧ 0 < k ∧
      k + (if inclusive then 2 else 3) < (u :: r.take more).length := by
  obtain ⟨starts, h⟩ := scan_range h
  unfold Scan.number at h
  split at h
  · cases h
  rename_i l n hl
  simp only [] at h
  split at h
  · cases h
  rename_i some
  split at h
  · cases h
  rename_i u' m hu
  obtain ⟨pos, le⟩ := Numeral.read_length starts hl
  obtain ⟨two, dots, starts'⟩ := Numeral.rangeLength_spec some
  rw [List.drop_drop] at starts'
  obtain ⟨pos', le'⟩ := Numeral.read_length starts' hu
  rw [List.length_drop] at le'
  generalize Numeral.rangeLength ((u :: r).drop n) = operator at *
  cases h
  have text : u :: r.take (n + operator + m - 1) = (u :: r).take (n + operator + m) := by
    obtain ⟨j, hj⟩ : ∃ j, n + operator + m = j + 1 := ⟨n + operator + m - 1, by omega⟩
    rw [hj]
    rfl
  have length : (u :: r.take (n + operator + m - 1)).length = n + operator + m := by
    rw [text, List.length_take]
    omega
  have inside : Text.ofString ".." <+: (u :: r.take (n + operator + m - 1)).drop n := by
    rw [text, List.drop_take]
    refine List.prefix_take_iff.2 ⟨dots, ?_⟩
    rw [Numeral.length_dots]
    omega
  obtain ⟨k, hk, kn⟩ := Text.indexOf?_le inside (by omega)
  refine ⟨k, hk, ?_, ?_⟩
  · refine Nat.pos_of_ne_zero fun zero => ?_
    rw [zero] at hk
    exact Numeral.not_dots_of_startsHere starts (Text.prefix_of_indexOf?_zero hk)
  · rw [length]
    rcases two with two | two <;> simp only [two] <;> simp <;> omega

end Cddl
