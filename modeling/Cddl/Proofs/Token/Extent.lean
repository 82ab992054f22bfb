import Cddl.Proofs.Token.Scan
/-!
# How much of a text a token takes

No token reaches past the end of the text it is scanned from (`scan_extent`), so its text is as long as it says and the
rest of the text follows it.
-/
namespace Cddl

variable {s r : Text} {n : Nat}

/-! ## Numerals -/

namespace Numeral

theorem length_of_radix? {x : (CodeUnit → Bool) × Nat} (h : radix? s = some x) : 2 ≤ s.length := by
  have mark := length_radixMarks
  unfold radix? at h
  split at h
  · have := List.IsPrefix.length_le ‹_›
    omega
  split at h
  · have := List.IsPrefix.length_le ‹_›
    omega
  · cases h

theorem lt_length_of_startsHere (h : startsHere (s.drop n) = true) : n < s.length := by
  refine Decidable.byContradiction fun out => ?_
  rw [List.drop_eq_nil_of_le (Nat.not_lt.1 out)] at h
  exact absurd h (by decide)

/-- Where digits are missed, the sign and the radix mark are there. -/
theorem read_noDigits_length (h : read s = .noDigits n) : n ≤ s.length := by
  rw [read_eq] at h
  split at h
  · rename_i radix
    have mark := length_of_radix? radix
    rw [List.length_drop] at mark
    split at h
    · cases h
      omega
    · cases h
  · unfold readDecimal at h
    simp only [] at h
    split at h <;> cases h

end Numeral

/-! ## Quoted literals -/

namespace Quoted

theorem prepend_eq_closed {x : Reading} {pre content : Text} {k : Nat} (h : x.prepend pre k = .closed content n) :
    ∃ c m, x = .closed c m ∧ content = pre ++ c ∧ n = k + m := by
  cases x with
  | closed c m =>
    cases h
    exact ⟨c, m, rfl, rfl, rfl⟩
  | unclosed beyond => cases h

theorem readText_length : ∀ {r content : Text} {n : Nat}, readText r = .closed content n → n ≤ r.length
  | [], _, _, h => by cases h
  | u :: r, content, n, h => by
    rw [readText.eq_def] at h
    simp only [] at h
    split at h
    · cases h
      exact Nat.succ_le_succ (Nat.zero_le _)
    split at h
    · match r, h with
      | [], h => cases h
      | e :: r, h =>
        obtain ⟨c, m, rest, _, rfl⟩ := prepend_eq_closed h
        have := readText_length rest
        simp only [List.length_cons]
        omega
    · obtain ⟨c, m, rest, _, rfl⟩ := prepend_eq_closed h
      have := readText_length rest
      rw [List.length_cons]
      omega

theorem readBytes_length {e : ByteEncoding} : ∀ {r content : Text} {n : Nat},
    readBytes e r = .closed content n → n ≤ r.length
  | [], _, _, h => by cases h
  | u :: r, content, n, h => by
    rw [readBytes.eq_def] at h
    simp only [] at h
    split at h
    · cases h
      exact Nat.succ_le_succ (Nat.zero_le _)
    split at h
    · match r, h with
      | [], h => cases h
      | q :: r, h =>
        simp only [] at h
        split at h
        · obtain ⟨c, m, rest, _, rfl⟩ := prepend_eq_closed h
          have := readBytes_length rest
          simp only [List.length_cons]
          omega
        · obtain ⟨c, m, rest, _, rfl⟩ := prepend_eq_closed h
          have := readBytes_length rest
          simp only [List.length_cons] at this ⊢
          omega
    · obtain ⟨c, m, rest, _, rfl⟩ := prepend_eq_closed h
      have := readBytes_length rest
      rw [List.length_cons]
      omega

end Quoted

/-! ## Tokens -/

namespace Scan

variable {u : CodeUnit} {body : Token.Body}

theorem number_extent (starts : Numeral.startsHere s = true) (h : number s = .token body n) : n < s.length := by
  unfold number at h
  split at h
  · cases h
  · rename_i lower k read
    obtain ⟨pos, le⟩ := Numeral.read_length starts read
    simp only [] at h
    split at h
    · cases h
      omega
    · rename_i some
      obtain ⟨_, _, starts'⟩ := Numeral.rangeLength_spec some
      rw [List.drop_drop] at starts'
      split at h
      · cases h
      · rename_i upper m read'
        obtain ⟨pos', le'⟩ := Numeral.read_length starts' read'
        rw [List.length_drop] at le'
        cases h
        omega

theorem number_fault {cause : LexCause} (starts : Numeral.startsHere s = true) (h : number s = .fault cause n) :
    n ≤ s.length := by
  unfold number at h
  split at h
  · rename_i used read
    cases h
    exact Numeral.read_noDigits_length read
  · rename_i lower k read
    obtain ⟨_, le⟩ := Numeral.read_length starts read
    simp only [] at h
    split at h
    · cases h
    · rename_i some
      obtain ⟨_, _, starts'⟩ := Numeral.rangeLength_spec some
      rw [List.drop_drop] at starts'
      split at h
      · rename_i used read'
        have le' := Numeral.read_noDigits_length read'
        have inside := Numeral.lt_length_of_startsHere starts'
        rw [List.length_drop] at le'
        cases h
        omega
      · cases h

theorem bytes_extent {e : ByteEncoding} {skip : Nat} (inside : skip ≤ r.length) (h : bytes e skip r = .token body n) :
    n ≤ r.length := by
  unfold bytes at h
  split at h
  · rename_i content m read
    have le := Quoted.readBytes_length read
    rw [List.length_drop] at le
    split at h
    · cases h
      omega
    · cases h
  · cases h

theorem hash_extent (h : hash r = .token body n) : n ≤ r.length := by
  have major := Numeral.run_le CodeUnit.isDigit r
  have number := Numeral.fractionLength_le (r.drop (Numeral.run CodeUnit.isDigit r))
  rw [List.length_drop] at number
  unfold hash at h
  simp only [] at h
  split at h
  · cases h
    omega
  · cases h
    omega

theorem nameLength_le : ∀ r : Text, nameLength r ≤ r.length
  | [] => Nat.le_refl _
  | u :: r => by
    have le := nameLength_le r
    rw [nameLength, List.length_cons]
    split
    · omega
    split
    · cases hn : nameLength r with
      | zero => exact Nat.zero_le _
      | succ k =>
        simp only []
        omega
    · omega

theorem spelling_of_symbol? {m : Mark} (h : symbol? s = some (r, m)) : r <+: s := by
  have found := List.find?_some h
  exact of_decide_eq_true found

theorem mark_extent (h : mark u r = .token body n) : n ≤ r.length := by
  unfold mark at h
  split at h
  · rename_i t m found
    have := (spelling_of_symbol? found).length_le
    rw [List.length_cons] at this
    cases h
    omega
  split at h
  · exact hash_extent h
  split at h
  · split at h
    · cases h
      exact nameLength_le r
    · cases h
  · cases h

end Scan

variable {u : CodeUnit} {body : Token.Body}

theorem length_base64Mark : (Text.ofString "64'").length = 3 := by decide

/-- **A token takes no more units than there are.** -/
theorem scan_extent (h : scan u r = .token body n) : n ≤ r.length := by
  unfold scan at h
  split at h
  · -- a text literal
    unfold Scan.text at h
    split at h
    · rename_i content m read
      cases h
      exact Quoted.readText_length read
    · cases h
  split at h
  · exact Scan.bytes_extent (Nat.zero_le _) h
  split at h
  · -- the mark before the quote belongs to the token as well, so it has to be there
    rename_i base16
    have quote : r.head? = some (CodeUnit.ofChar '\'') := by simpa using (Bool.and_eq_true_iff.1 base16).2
    refine Scan.bytes_extent ?_ h
    cases r with
    | nil => cases quote
    | cons => exact Nat.succ_le_succ (Nat.zero_le _)
  split at h
  · rename_i base64
    have quote : Text.ofString "64'" <+: r := by simpa using (Bool.and_eq_true_iff.1 base64).2
    exact Scan.bytes_extent (length_base64Mark ▸ quote.length_le) h
  split at h
  · exact Nat.le_of_lt_succ (Scan.number_extent ‹_› h)
  split at h
  · cases h
    exact Scan.nameLength_le r
  · exact Scan.mark_extent h

/-- A numeral that misses its digits has used up no more units than there are. -/
theorem scan_noRadixDigits (h : scan u r = .fault .noRadixDigits n) : n ≤ r.length + 1 := by
  unfold scan at h
  have bytes {e : ByteEncoding} {k : Nat} (h : Scan.bytes e k r = .fault .noRadixDigits n) : False := by
    unfold Scan.bytes at h
    split at h
    · split at h <;> cases h
    · cases h
  split at h
  · unfold Scan.text at h
    split at h <;> cases h
  split at h
  · exact (bytes h).elim
  split at h
  · exact (bytes h).elim
  split at h
  · exact (bytes h).elim
  split at h
  · exact Scan.number_fault ‹_› h
  split at h
  · cases h
  · unfold Scan.mark at h
    split at h
    · cases h
    split at h
    · unfold Scan.hash at h
      simp only [] at h
      split at h <;> cases h
    split at h
    · split at h <;> cases h
    · cases h

end Cddl
