import Cddl.Proofs.Layout.Lexeme
import Cddl.Proofs.Token.Extent
/-!
# Tokens of a text that is cut off

A scanner that looks ahead and finds what it looks for takes it, so it never finds anything behind the token that it
reads.  A token that ends before a text is cut off is read from what is left of the text as well (`scan_cut`).
-/
namespace Cddl

open CodeUnit (ofChar)

variable {p : CodeUnit → Bool} {u : CodeUnit} {s r t pattern : Text} {n : Nat}

/-! ## Looking ahead -/

theorem head?_cut (h : s ≠ []) : (s ++ t).head? = s.head? := by
  cases s with
  | nil => exact absurd rfl h
  | cons => rfl

theorem drop_ne_nil (room : n < s.length) : s.drop n ≠ [] :=
  fun h => absurd (List.drop_eq_nil_iff.1 h) (Nat.not_le.2 room)

theorem any_head?_cut (h : s.head?.any p = true) (t : Text) : (s ++ t).head?.any p = true := by
  cases s with
  | nil => cases h
  | cons => exact h

theorem prefix_cut (inside : pattern.length ≤ s.length) : pattern <+: s ++ t ↔ pattern <+: s :=
  ⟨fun h => List.prefix_of_prefix_length_le h (List.prefix_append s t) inside,
    fun h => h.trans (List.prefix_append s t)⟩

/-! ## Numerals -/

namespace Numeral

variable {v : Literal} {x : (CodeUnit → Bool) × Nat}

theorem run_cut (inside : run p (s ++ t) ≤ s.length) : run p s = run p (s ++ t) := by
  unfold run at inside ⊢
  induction s with
  | nil => exact (Nat.le_zero.1 inside).symm
  | cons u s ih =>
    rw [List.cons_append, List.takeWhile_cons] at inside ⊢
    rw [List.takeWhile_cons]
    by_cases hu : p u = true
    · rw [if_pos hu] at inside ⊢
      rw [if_pos hu, List.length_cons, List.length_cons, ih (Nat.le_of_succ_le_succ inside)]
    · rw [if_neg hu, if_neg hu]

theorem startsHere_append (h : startsHere s = true) (t : Text) : startsHere (s ++ t) = true := by
  unfold startsHere at h ⊢
  rw [Bool.or_eq_true, Bool.and_eq_true, decide_eq_true_iff] at h ⊢
  cases s with
  | nil => exact h.elim (fun digit => by cases digit) fun h => by cases h.1
  | cons u s => exact h.imp id fun ⟨minus, digit⟩ => ⟨minus, any_head?_cut digit t⟩

theorem signLength_append (h : s ≠ []) : signLength (s ++ t) = signLength s := by
  cases s with
  | nil => exact absurd rfl h
  | cons => rfl

/-- Where a numeral begins, there is a digit behind the sign. -/
theorem startsHere_of_digit (h : startsWithDigit (s.drop (signLength s)) = true) : startsHere s = true := by
  unfold startsHere
  unfold signLength at h
  rw [Bool.or_eq_true, Bool.and_eq_true, decide_eq_true_iff]
  by_cases minus : s.head? = some (ofChar '-')
  · rw [if_pos minus] at h
    exact .inr ⟨minus, h⟩
  · rw [if_neg minus] at h
    exact .inl h

theorem startsHere_cut (starts : startsHere (s ++ t) = true) (inside : signLength (s ++ t) < s.length) :
    startsHere s = true := by
  have some : s ≠ [] := List.ne_nil_of_length_pos (by omega)
  have digit := startsWithDigit_of_startsHere starts
  rw [signLength_append some] at digit inside
  apply startsHere_of_digit
  rw [List.drop_append_of_le_length (Nat.le_of_lt inside)] at digit
  obtain ⟨u, r, split⟩ := List.exists_cons_of_ne_nil (drop_ne_nil inside)
  rw [split] at digit ⊢
  exact digit

/-- Digits that are looked for some units on are found in a text that is cut off, if they are all there. -/
theorem digits_cut {k : Nat} (inside : startsWithDigit ((s ++ t).drop k) = true →
    run CodeUnit.isDigit ((s ++ t).drop k) + k ≤ s.length) :
    startsWithDigit (s.drop k) = startsWithDigit ((s ++ t).drop k) ∧
      (startsWithDigit (s.drop k) = true →
        run CodeUnit.isDigit (s.drop k) = run CodeUnit.isDigit ((s ++ t).drop k)) := by
  have past (h : s.length ≤ k) : s.drop k = [] := List.drop_eq_nil_of_le h
  by_cases room : k < s.length
  · obtain ⟨u, r, split⟩ := List.exists_cons_of_ne_nil (drop_ne_nil room)
    have length := congrArg List.length split
    rw [List.length_drop] at length
    rw [List.drop_append_of_le_length (Nat.le_of_lt room), split] at inside ⊢
    refine ⟨rfl, fun digit => run_cut ?_⟩
    have digits := inside digit
    omega
  · rw [past (Nat.not_lt.1 room)]
    refine ⟨?_, fun digit => by cases digit⟩
    by_cases digit : startsWithDigit ((s ++ t).drop k) = true
    · have first := run_pos digit
      have digits := inside digit
      omega
    · rw [Bool.not_eq_true] at digit
      exact digit.symm

/-- The same for the digits and what they stand behind, which may be missing. -/
theorem part_cut {k : Nat} (b : Bool) (inside : (if b && startsWithDigit ((s ++ t).drop k)
    then run CodeUnit.isDigit ((s ++ t).drop k) + k else 0) ≤ s.length) :
    (if b && startsWithDigit (s.drop k) then run CodeUnit.isDigit (s.drop k) + k else 0) =
      if b && startsWithDigit ((s ++ t).drop k) then run CodeUnit.isDigit ((s ++ t).drop k) + k else 0 := by
  cases b with
  | false => rfl
  | true =>
    rw [Bool.true_and] at inside
    rw [Bool.true_and, Bool.true_and]
    have digits := digits_cut (s := s) (t := t) (k := k) fun digit => by rwa [if_pos digit] at inside
    rw [← digits.1]
    by_cases digit : startsWithDigit (s.drop k) = true
    · rw [if_pos digit, if_pos digit, digits.2 digit]
    · rw [if_neg digit, if_neg digit]

theorem fractionLength_cut (inside : fractionLength (s ++ t) ≤ s.length) :
    fractionLength s = fractionLength (s ++ t) := by
  by_cases some : s = []
  · rw [some] at inside ⊢
    exact (Nat.le_zero.1 inside).symm
  unfold fractionLength at inside ⊢
  rw [head?_cut some] at inside ⊢
  exact part_cut _ inside

theorem exponentLength_cut (inside : exponentLength (s ++ t) ≤ s.length) :
    exponentLength s = exponentLength (s ++ t) := by
  by_cases some : s = []
  · rw [some] at inside ⊢
    exact (Nat.le_zero.1 inside).symm
  unfold exponentLength at inside ⊢
  rw [head?_cut some] at inside ⊢
  split
  · rename_i letter
    rw [if_pos letter] at inside
    have digits := digits_cut (s := s) (t := t) (k := 1) fun digit => by rwa [if_pos digit] at inside
    rw [← digits.1] at inside ⊢
    by_cases digit : startsWithDigit (s.drop 1) = true
    · rw [if_pos digit, if_pos digit, digits.2 digit]
    rw [if_neg digit] at inside
    rw [if_neg digit, if_neg digit]
    by_cases room : 1 < s.length
    · rw [List.drop_append_of_le_length (Nat.le_of_lt room), head?_cut (drop_ne_nil room)] at inside ⊢
      exact part_cut _ inside
    · -- neither the sign nor the digit could be taken
      have none : s.drop 1 = [] := List.drop_eq_nil_of_le (Nat.not_lt.1 room)
      rw [none, if_neg (fun h => by cases h)]
      split
      · rw [if_pos ‹_›] at inside
        omega
      · rfl
  · rfl

theorem radix?_append (h : radix? (s ++ t) = none) : radix? s = none := by
  unfold radix? at h ⊢
  split at h
  · cases h
  rename_i hexadecimal
  split at h
  · cases h
  rename_i binary
  rw [if_neg fun h => hexadecimal (h.trans (List.prefix_append s t)),
    if_neg fun h => binary (h.trans (List.prefix_append s t))]

theorem radix?_cut (inside : 2 ≤ s.length) : radix? (s ++ t) = radix? s := by
  obtain ⟨hexadecimal, binary⟩ := length_radixMarks
  unfold radix?
  simp only [prefix_cut (hexadecimal ▸ inside), prefix_cut (binary ▸ inside)]

theorem readDecimal_length_eq {negative : Bool} {sign : Nat} (h : readDecimal s negative sign = .literal v n) :
    n = sign + run CodeUnit.isDigit (s.drop sign) +
      fractionLength (s.drop (sign + run CodeUnit.isDigit (s.drop sign))) +
        exponentLength (s.drop (sign + run CodeUnit.isDigit (s.drop sign) +
          fractionLength (s.drop (sign + run CodeUnit.isDigit (s.drop sign))))) := by
  unfold readDecimal at h
  simp only [] at h
  split at h <;> cases h <;> rfl

theorem readDecimal_cut {negative : Bool} {sign : Nat} (h : readDecimal (s ++ t) negative sign = .literal v n)
    (inside : n ≤ s.length) : readDecimal s negative sign = .literal v n := by
  have length := readDecimal_length_eq h
  have signed : sign ≤ s.length := by omega
  have digits : run CodeUnit.isDigit (s.drop sign) = run CodeUnit.isDigit ((s ++ t).drop sign) := by
    rw [List.drop_append_of_le_length signed] at length ⊢
    apply run_cut
    rw [List.length_drop]
    omega
  rw [← digits] at length
  have whole : sign + run CodeUnit.isDigit (s.drop sign) ≤ s.length := by omega
  have fraction : fractionLength (s.drop (sign + run CodeUnit.isDigit (s.drop sign))) =
      fractionLength ((s ++ t).drop (sign + run CodeUnit.isDigit (s.drop sign))) := by
    rw [List.drop_append_of_le_length whole] at length ⊢
    apply fractionLength_cut
    rw [List.length_drop]
    omega
  rw [← fraction] at length
  have decimal : sign + run CodeUnit.isDigit (s.drop sign) +
      fractionLength (s.drop (sign + run CodeUnit.isDigit (s.drop sign))) ≤ s.length := by omega
  have exponent : exponentLength (s.drop (sign + run CodeUnit.isDigit (s.drop sign) +
      fractionLength (s.drop (sign + run CodeUnit.isDigit (s.drop sign))))) =
        exponentLength ((s ++ t).drop (sign + run CodeUnit.isDigit (s.drop sign) +
          fractionLength (s.drop (sign + run CodeUnit.isDigit (s.drop sign))))) := by
    rw [List.drop_append_of_le_length decimal] at length ⊢
    apply exponentLength_cut
    rw [List.length_drop]
    omega
  rw [← exponent] at length
  rw [← h]
  unfold readDecimal
  simp only [← digits, ← fraction, ← exponent]
  rw [List.drop_append_of_le_length signed, List.take_append_of_le_length (by rw [List.length_drop]; omega),
    List.take_append_of_le_length (by omega)]

theorem ne_nil_of_read (starts : startsHere (s ++ t) = true) (h : read (s ++ t) = .literal v n)
    (inside : n ≤ s.length) :
    s ≠ [] := List.ne_nil_of_length_pos (Nat.lt_of_lt_of_le (read_length starts h).1 inside)

theorem signLength_le_one (s : Text) : signLength s ≤ 1 := by
  unfold signLength
  split <;> omega

/-- **A numeral that ends before a text is cut off is read from what is left of the text.** -/
theorem read_cut (starts : startsHere (s ++ t) = true) (h : read (s ++ t) = .literal v n) (inside : n ≤ s.length) :
    read s = .literal v n := by
  have some := ne_nil_of_read starts h inside
  have signed : signLength s ≤ s.length := Nat.le_trans (signLength_le_one s) (List.length_pos_iff.2 some)
  rw [read_eq, signLength_append some, head?_cut some, List.drop_append_of_le_length signed] at h
  rw [read_eq]
  cases radix : radix? (s.drop (signLength s) ++ t) with
  | none =>
    rw [radix] at h
    rw [radix?_append radix]
    exact readDecimal_cut h inside
  | some x =>
    obtain ⟨digit, base⟩ := x
    rw [radix] at h
    simp only [] at h
    split at h
    · cases h
    rename_i some
    injection h with value length
    have marked : signLength s + 2 ≤ s.length := by omega
    rw [List.drop_append_of_le_length marked] at some value length
    have digits : run digit (s.drop (signLength s + 2)) = run digit (s.drop (signLength s + 2) ++ t) := by
      apply run_cut
      rw [List.length_drop]
      omega
    rw [radix?_cut (by rw [List.length_drop]; omega)] at radix
    rw [radix]
    rw [← digits] at some value length
    rw [List.take_append_of_le_length (run_le _ _)] at value
    simp only [if_neg some, value, length]

/-- The sign is not the whole of a numeral. -/
theorem signLength_lt_of_read (starts : startsHere s = true) (h : read s = .literal v n) : signLength s < n := by
  rw [read_eq] at h
  split at h
  · split at h
    · cases h
    · cases h
      omega
  · exact (readDecimal_length (startsWithDigit_of_startsHere starts) h).1

theorem startsHere_of_read (starts : startsHere (s ++ t) = true) (h : read (s ++ t) = .literal v n)
    (inside : n ≤ s.length) : startsHere s = true :=
  startsHere_cut starts (Nat.lt_of_lt_of_le (signLength_lt_of_read starts h) inside)

theorem rangeLength_eq_three :
    rangeLength s = 3 ↔ Text.ofString "..." <+: s ∧ startsHere (s.drop 3) = true := by
  unfold rangeLength
  by_cases three : Text.ofString "..." <+: s
  · rw [if_pos three]
    by_cases starts : startsHere (s.drop 3) = true
    · simp [starts, three]
    · simp [starts]
  · rw [if_neg three]
    refine ⟨fun h => ?_, fun h => absurd h.1 three⟩
    split at h
    · split at h <;> cases h
    · cases h

theorem rangeLength_eq_two : rangeLength s = 2 ↔
    ¬ Text.ofString "..." <+: s ∧ Text.ofString ".." <+: s ∧ startsHere (s.drop 2) = true := by
  unfold rangeLength
  by_cases three : Text.ofString "..." <+: s
  · rw [if_pos three]
    refine ⟨fun h => ?_, fun h => absurd three h.1⟩
    split at h <;> cases h
  · rw [if_neg three]
    by_cases two : Text.ofString ".." <+: s
    · rw [if_pos two]
      by_cases starts : startsHere (s.drop 2) = true
      · simp [starts, three, two]
      · simp [starts]
    · simp [two]

/-- A range operator that is found does not turn into another one when the text goes on. -/
theorem rangeLength_append (some : rangeLength s ≠ 0) (t : Text) : rangeLength (s ++ t) = rangeLength s := by
  obtain ⟨length, _, starts⟩ := rangeLength_spec some
  have room := lt_length_of_startsHere starts
  have inside : (Text.ofString "...").length ≤ s.length := by
    rw [length_ellipsis]
    omega
  rcases length with two | three
  · obtain ⟨open3, dots, starts⟩ := rangeLength_eq_two.1 two
    rw [two, rangeLength_eq_two, prefix_cut inside, List.drop_append_of_le_length (by omega)]
    exact ⟨open3, dots.trans (List.prefix_append s t), startsHere_append starts t⟩
  · obtain ⟨dots, starts⟩ := rangeLength_eq_three.1 three
    rw [three, rangeLength_eq_three, prefix_cut inside, List.drop_append_of_le_length (by omega)]
    exact ⟨dots, startsHere_append starts t⟩

theorem rangeLength_cut (some : rangeLength (s ++ t) ≠ 0) (starts : startsHere (s.drop (rangeLength (s ++ t))) = true) :
    rangeLength s = rangeLength (s ++ t) := by
  obtain ⟨length, dots, _⟩ := rangeLength_spec some
  have room := lt_length_of_startsHere starts
  have inside : (Text.ofString "...").length ≤ s.length := by
    rw [length_ellipsis]
    omega
  have two : (Text.ofString "..").length ≤ s.length := by
    rw [length_dots]
    omega
  rcases length with length | length
  · rw [length] at starts
    rw [length, rangeLength_eq_two]
    obtain ⟨open3, _, _⟩ := rangeLength_eq_two.1 length
    exact ⟨fun h => open3 ((prefix_cut inside).2 h), (prefix_cut two).1 dots, starts⟩
  · rw [length] at starts
    rw [length, rangeLength_eq_three]
    exact ⟨(prefix_cut inside).1 (rangeLength_eq_three.1 length).1, starts⟩

end Numeral

/-! ## Quoted literals -/

namespace Quoted

theorem readText_pos {content : Text} (h : readText s = .closed content n) : 0 < n := by
  cases s with
  | nil => cases h
  | cons u r =>
    rw [readText.eq_def] at h
    simp only [] at h
    split at h
    · cases h
      exact Nat.one_pos
    split at h
    · cases r with
      | nil => cases h
      | cons e r =>
        obtain ⟨_, _, _, _, rfl⟩ := prepend_eq_closed h
        omega
    · obtain ⟨_, _, _, _, rfl⟩ := prepend_eq_closed h
      omega

theorem readBytes_pos {e : ByteEncoding} {content : Text} (h : readBytes e s = .closed content n) : 0 < n := by
  cases s with
  | nil => cases h
  | cons u r =>
    rw [readBytes.eq_def] at h
    simp only [] at h
    split at h
    · cases h
      exact Nat.one_pos
    split at h
    · cases r with
      | nil => cases h
      | cons q r =>
        simp only [] at h
        split at h
        · obtain ⟨_, _, _, _, rfl⟩ := prepend_eq_closed h
          omega
        · obtain ⟨_, _, _, _, rfl⟩ := prepend_eq_closed h
          omega
    · obtain ⟨_, _, _, _, rfl⟩ := prepend_eq_closed h
      omega

theorem readText_cut : ∀ {s content : Text} {n : Nat}, readText (s ++ t) = .closed content n → n ≤ s.length →
    readText s = .closed content n
  | [], _, _, h, inside => absurd inside (Nat.not_le.2 (readText_pos h))
  | u :: r, content, n, h, inside => by
    rw [List.cons_append, readText.eq_def] at h
    rw [readText.eq_def]
    simp only [List.length_cons] at h inside ⊢
    split at h
    · rename_i quote
      rw [if_pos quote]
      exact h
    rename_i quote
    rw [if_neg quote]
    split at h
    · rename_i backslash
      rw [if_pos backslash]
      match r, inside, h with
      | [], inside, h =>
        -- the unit that is escaped would be cut off
        cases t with
        | nil => cases h
        | cons e t =>
          obtain ⟨_, _, _, _, rfl⟩ := prepend_eq_closed h
          rw [List.length_nil] at inside
          omega
      | e :: r, inside, h =>
        obtain ⟨c, m, rest, rfl, rfl⟩ := prepend_eq_closed h
        rw [List.length_cons] at inside
        simp only [readText_cut rest (by omega)]
        rfl
    · rename_i backslash
      obtain ⟨c, m, rest, rfl, rfl⟩ := prepend_eq_closed h
      rw [if_neg backslash, readText_cut rest (by omega)]
      rfl

theorem readBytes_cut {e : ByteEncoding} : ∀ {s content : Text} {n : Nat}, readBytes e (s ++ t) = .closed content n →
    n ≤ s.length → readBytes e s = .closed content n
  | [], _, _, h, inside => absurd inside (Nat.not_le.2 (readBytes_pos h))
  | u :: r, content, n, h, inside => by
    rw [List.cons_append, readBytes.eq_def] at h
    rw [readBytes.eq_def]
    simp only [List.length_cons] at h inside ⊢
    split at h
    · rename_i quote
      rw [if_pos quote]
      exact h
    rename_i quote
    rw [if_neg quote]
    split at h
    · rename_i backslash
      rw [if_pos backslash]
      match r, inside, h with
      | [], inside, h =>
        -- there is room for the backslash only
        rw [List.length_nil] at inside
        cases t with
        | nil => cases h
        | cons q t =>
          simp only [List.nil_append] at h
          split at h
          · obtain ⟨_, _, _, _, rfl⟩ := prepend_eq_closed h
            omega
          · obtain ⟨_, _, rest, _, rfl⟩ := prepend_eq_closed h
            have pos := readBytes_pos rest
            omega
      | q :: r, inside, h =>
        simp only [List.cons_append, List.length_cons] at h inside ⊢
        split at h
        · rename_i escaped
          obtain ⟨c, m, rest, rfl, rfl⟩ := prepend_eq_closed h
          rw [if_pos escaped, readBytes_cut rest (by omega)]
          rfl
        · rename_i escaped
          obtain ⟨c, m, rest, rfl, rfl⟩ := prepend_eq_closed h
          rw [← List.cons_append] at rest
          rw [if_neg escaped, readBytes_cut rest (by rw [List.length_cons]; omega)]
          rfl
    · rename_i backslash
      obtain ⟨c, m, rest, rfl, rfl⟩ := prepend_eq_closed h
      rw [if_neg backslash, readBytes_cut rest (by omega)]
      rfl

end Quoted

/-! ## Tokens -/

namespace Scan

variable {body : Token.Body}

theorem number_cut (starts : Numeral.startsHere (s ++ t) = true) (h : number (s ++ t) = .token body n)
    (inside : n < s.length) : number s = .token body n := by
  unfold number at h ⊢
  split at h
  · cases h
  rename_i lower k read
  obtain ⟨pos, _⟩ := Numeral.read_length starts read
  simp only [] at h
  split at h
  · rename_i none
    injection h with value length
    have whole : k ≤ s.length := by omega
    rw [List.drop_append_of_le_length whole] at none
    have none : Numeral.rangeLength (s.drop k) = 0 := by
      refine Decidable.byContradiction fun some => some ?_
      rw [← Numeral.rangeLength_append some t, none]
    rw [Numeral.read_cut starts read whole]
    simp only [none, if_true, value, length]
  · rename_i some
    obtain ⟨_, _, starts'⟩ := Numeral.rangeLength_spec some
    split at h
    · cases h
    rename_i upper m read'
    rw [← List.drop_drop] at read'
    obtain ⟨pos', _⟩ := Numeral.read_length starts' read'
    injection h with value length
    have whole : k ≤ s.length := by omega
    rw [List.drop_append_of_le_length whole] at some starts' read' value length
    have reach : Numeral.rangeLength (s.drop k ++ t) ≤ (s.drop k).length := by
      rw [List.length_drop]
      omega
    rw [List.drop_append_of_le_length reach] at starts' read'
    have room : m ≤ ((s.drop k).drop (Numeral.rangeLength (s.drop k ++ t))).length := by
      rw [List.length_drop, List.length_drop]
      omega
    have operator := Numeral.rangeLength_cut some (Numeral.startsHere_of_read starts' read' room)
    have upper := Numeral.read_cut starts' read' room
    rw [List.drop_drop] at upper
    rw [Numeral.read_cut starts read whole]
    simp only [operator, if_neg some, upper, value, length]

theorem startsHere_of_number (starts : Numeral.startsHere (s ++ t) = true) (h : number (s ++ t) = .token body n)
    (inside : n < s.length) : Numeral.startsHere s = true := by
  unfold number at h
  split at h
  · cases h
  rename_i lower k read
  apply Numeral.startsHere_of_read starts read
  simp only [] at h
  split at h
  · cases h
    omega
  · split at h
    · cases h
    · cases h
      omega

theorem text_cut (h : text (s ++ t) = .token body n) (inside : n ≤ s.length) : text s = .token body n := by
  unfold text at h ⊢
  split at h
  · rename_i content m read
    cases h
    rw [Quoted.readText_cut read inside]
  · cases h

theorem bytes_cut {e : ByteEncoding} {skip : Nat} (h : bytes e skip (s ++ t) = .token body n) (inside : n ≤ s.length) :
    bytes e skip s = .token body n := by
  unfold bytes at h ⊢
  split at h
  · rename_i content m read
    split at h
    · rename_i accepted
      injection h with value length
      rw [List.drop_append_of_le_length (by omega)] at read
      rw [Quoted.readBytes_cut read (by rw [List.length_drop]; omega)]
      simp only [if_pos accepted, value, length]
    · cases h
  · cases h

/-- A byte string takes the quote behind its prefix. -/
theorem lt_of_bytes {e : ByteEncoding} {skip : Nat} (h : bytes e skip s = .token body n) : skip < n := by
  unfold bytes at h
  split at h
  · rename_i content m read
    have pos := Quoted.readBytes_pos read
    split at h
    · injection h with value length
      omega
    · cases h
  · cases h

theorem nameLength_cut (inside : nameLength (s ++ t) ≤ s.length) : nameLength s = nameLength (s ++ t) := by
  induction s with
  | nil => exact (Nat.le_zero.1 inside).symm
  | cons u s ih =>
    rw [List.cons_append, nameLength] at inside ⊢
    rw [nameLength]
    rw [List.length_cons] at inside
    split
    · rename_i part
      rw [if_pos part] at inside
      rw [ih (by omega)]
    rename_i part
    rw [if_neg part] at inside
    split
    · rename_i joint
      rw [if_pos joint] at inside
      have rest : nameLength s = nameLength (s ++ t) := by
        apply ih
        split at inside <;> omega
      rw [rest]
    · rfl

theorem nameLength_pos (h : startsWithName s = true) : 0 < nameLength s := by
  cases s with
  | nil => cases h
  | cons u s =>
    have starts : u.startsName = true := h
    rw [nameLength, CodeUnit.inName, starts, Bool.true_or, if_pos rfl]
    exact Nat.succ_pos _

theorem symbol?_cut {m : Mark} (h : symbol? (s ++ t) = some (pattern, m)) (inside : pattern.length ≤ s.length) :
    symbol? s = some (pattern, m) := by
  unfold symbol? at h ⊢
  obtain ⟨found, before, behind, split, first⟩ := List.find?_eq_some_iff_append.1 h
  refine List.find?_eq_some_iff_append.2 ⟨?_, before, behind, split, fun q hq => ?_⟩
  · exact decide_eq_true ((prefix_cut inside).1 (of_decide_eq_true found))
  · have absent := first q hq
    rw [Bool.not_eq_true', decide_eq_false_iff_not] at absent ⊢
    exact fun h => absent (h.trans (List.prefix_append s t))

theorem symbol?_none_cut (h : symbol? (s ++ t) = none) : symbol? s = none := by
  unfold symbol? at h ⊢
  rw [List.find?_eq_none] at h ⊢
  intro q hq found
  exact h q hq (decide_eq_true ((of_decide_eq_true found).trans (List.prefix_append s t)))

theorem hash_cut (h : hash (s ++ t) = .token body n) (inside : n ≤ s.length) : hash s = .token body n := by
  unfold hash at h ⊢
  simp only [] at h ⊢
  have major : Numeral.run CodeUnit.isDigit s = Numeral.run CodeUnit.isDigit (s ++ t) := by
    apply Numeral.run_cut
    split at h <;> cases h <;> omega
  rw [← major] at h
  split
  · rename_i none
    rwa [if_pos none] at h
  rename_i some
  rw [if_neg some] at h
  injection h with value length
  have digits := Numeral.run_le CodeUnit.isDigit s
  rw [List.drop_append_of_le_length digits] at value length
  have number : Numeral.fractionLength (s.drop (Numeral.run CodeUnit.isDigit s)) =
      Numeral.fractionLength (s.drop (Numeral.run CodeUnit.isDigit s) ++ t) := by
    apply Numeral.fractionLength_cut
    rw [List.length_drop]
    omega
  rw [← number] at value length
  rw [List.take_append_of_le_length digits] at value
  rw [← value, length]
  by_cases none : Numeral.fractionLength (s.drop (Numeral.run CodeUnit.isDigit s)) = 0
  · rw [if_pos none, if_pos none]
  · rw [if_neg none, if_neg none, List.drop_append_of_le_length (by omega),
      List.take_append_of_le_length (by rw [List.length_drop]; omega)]

theorem mark_cut (h : mark u (s ++ t) = .token body n) (inside : n ≤ s.length) : mark u s = .token body n := by
  unfold mark at h ⊢
  split at h
  · rename_i symbol m found
    injection h with value length
    rw [← List.cons_append] at found
    rw [symbol?_cut found (by rw [List.length_cons]; omega)]
    simp only [value, length]
  rename_i absent
  rw [← List.cons_append] at absent
  rw [symbol?_none_cut absent]
  simp only []
  split
  · rename_i is
    rw [if_pos is] at h
    exact hash_cut h inside
  rename_i is
  rw [if_neg is] at h
  split
  · rename_i dot
    rw [if_pos dot] at h
    split at h
    · rename_i name
      injection h with value length
      have rest : nameLength s = nameLength (s ++ t) := nameLength_cut (length ▸ inside)
      have some : s ≠ [] := by
        rintro rfl
        have first := nameLength_pos name
        rw [← length, List.length_nil] at inside
        omega
      have name : startsWithName s = true := by
        unfold startsWithName at name ⊢
        rwa [head?_cut some] at name
      rw [if_pos name, rest, value, length]
    · cases h
  · rename_i dot
    rw [if_neg dot] at h
    cases h

end Scan

/-- **A token that ends before a text is cut off is read from what is left of the text.** -/
theorem scan_cut {body : Token.Body} (h : scan u (r ++ t) = .token body n) (inside : n ≤ r.length) :
    scan u r = .token body n := by
  rw [scan_eq] at h ⊢
  split at h
  · rename_i is
    rw [if_pos is]
    exact Scan.text_cut h inside
  rename_i is
  rw [if_neg is]
  split at h
  · rename_i is
    rw [if_pos is]
    exact Scan.bytes_cut h inside
  rename_i is
  rw [if_neg is]
  split at h
  · rename_i is
    have skipped := Scan.lt_of_bytes h
    rw [head?_cut (List.ne_nil_of_length_pos (by omega))] at is
    rw [if_pos is]
    exact Scan.bytes_cut h inside
  rename_i is
  have is : ¬ (decide (u = ofChar 'h') && decide (r.head? = some (ofChar '\''))) = true := by
    rw [Bool.and_eq_true, decide_eq_true_iff, decide_eq_true_iff] at is ⊢
    exact fun h => is ⟨h.1, by rw [List.head?_append, h.2]; rfl⟩
  rw [if_neg is]
  split at h
  · rename_i is
    have skipped := Scan.lt_of_bytes h
    have room : (Text.ofString "64'").length ≤ r.length := by
      rw [length_base64Mark]
      omega
    simp only [prefix_cut room] at is
    rw [if_pos is]
    exact Scan.bytes_cut h inside
  rename_i is
  have is : ¬ (decide (u = ofChar 'b') && decide (Text.ofString "64'" <+: r)) = true := by
    rw [Bool.and_eq_true, decide_eq_true_iff, decide_eq_true_iff] at is ⊢
    exact fun h => is ⟨h.1, h.2.trans (List.prefix_append r t)⟩
  rw [if_neg is]
  split at h
  · rename_i is
    have room : n < (u :: r).length := Nat.lt_succ_of_le inside
    rw [if_pos (Scan.startsHere_of_number is h room)]
    exact Scan.number_cut is h room
  rename_i is
  rw [if_neg fun starts => is (Numeral.startsHere_append starts t)]
  split at h
  · rename_i is
    rw [if_pos is]
    injection h with value length
    rw [value, Scan.nameLength_cut (length ▸ inside), length]
  · rename_i is
    rw [if_neg is]
    exact Scan.mark_cut h inside

end Cddl
