import Cddl.Proofs.Layout.Lexeme
import Cddl.Proofs.Token.Run
import Mathlib.Data.List.Find
/-!
# Tokens before a break

No scanner reads on over a blank or a comment behind the text it reads, so a token that ends with a text is read from
the text with a blank or a comment and another text behind it too (`scan_break`).  Most often that is a line break.  An
equals sign does as well, except behind a slash, with which it is another mark.
-/
namespace Cddl

open CodeUnit (ofChar)

variable {p : CodeUnit → Bool} {u c : CodeUnit} {s r t pattern : Text} {n : Nat}

/-! ## Looking ahead -/

/-- The units that white space and comments begin with. -/
def separators : List CodeUnit := [ofChar ' ', ofChar '\t', ofChar '\r', ofChar '\n', ofChar ';']

theorem mem_separators : c ∈ separators ↔
    c = ofChar ' ' ∨ c = ofChar '\t' ∨ c = ofChar '\r' ∨ c = ofChar '\n' ∨ c = ofChar ';' := by
  simp [separators]

/-- The units that go on with no token, but for the equals sign behind a slash. -/
def breaks : List CodeUnit := ofChar '=' :: separators

theorem mem_breaks : c ∈ breaks ↔ c = ofChar '=' ∨ c = ofChar ' ' ∨ c = ofChar '\t' ∨ c = ofChar '\r' ∨
    c = ofChar '\n' ∨ c = ofChar ';' := by
  simp [breaks, separators]

theorem forall_breaks {q : CodeUnit → Prop} : (∀ c ∈ breaks, q c) ↔
    q (ofChar '=') ∧ q (ofChar ' ') ∧ q (ofChar '\t') ∧ q (ofChar '\r') ∧ q (ofChar '\n') ∧ q (ofChar ';') := by
  simp [breaks, separators]

/-- A unit that no token at the end of a text goes on with. -/
def BreaksOff (s : Text) (c : CodeUnit) : Prop := c ∈ separators ∨ c = ofChar '=' ∧ s.getLast? ≠ some (ofChar '/')

theorem BreaksOff.mem (h : BreaksOff s c) : c ∈ breaks := by
  rcases h with space | ⟨rfl, _⟩
  · exact List.mem_cons_of_mem _ space
  · exact List.mem_cons_self

theorem head?_break (hu : u ≠ c) : (s ++ c :: t).head? = some u ↔ s.head? = some u := by
  cases s with
  | nil => exact ⟨fun h => absurd (Option.some.inj h).symm hu, fun h => by cases h⟩
  | cons => exact Iff.rfl

theorem any_head?_break (hp : p c = false) : (s ++ c :: t).head?.any p = s.head?.any p := by
  cases s with
  | nil => exact hp
  | cons => rfl

theorem prefix_break (hn : c ∉ pattern) : pattern <+: s ++ c :: t ↔ pattern <+: s := by
  refine ⟨fun h => ?_, fun h => h.trans (List.prefix_append _ _)⟩
  induction pattern generalizing s with
  | nil => exact List.nil_prefix
  | cons a pattern ih =>
    cases s with
    | nil => exact absurd (List.cons_prefix_cons.1 h).1 fun same => hn (same ▸ List.mem_cons_self)
    | cons b s =>
      obtain ⟨rfl, rest⟩ := List.cons_prefix_cons.1 h
      exact List.cons_prefix_cons.2 ⟨rfl, ih (fun h => hn (List.mem_cons_of_mem _ h)) rest⟩

/-- A pattern that stands at the front of a text only with what is behind a break goes on over the break. -/
theorem prefix_over_break (h : pattern <+: s ++ c :: t) (none : ¬ pattern <+: s) : s ++ [c] <+: pattern := by
  have whole : s ++ [c] <+: s ++ c :: t := by simp
  rcases List.prefix_or_prefix_of_prefix h whole with short | long
  · rcases List.prefix_concat_iff.1 short with rfl | short
    · exact List.prefix_rfl
    · exact absurd short none
  · exact long

/-! ## Numerals -/

namespace Numeral

theorem not_isDigit_of_break (hc : c ∈ breaks) : CodeUnit.isDigit c = false :=
  (forall_breaks.2 (by decide) : ∀ c ∈ breaks, CodeUnit.isDigit c = false) c hc

theorem minus_ne_of_break (hc : c ∈ breaks) : ofChar '-' ≠ c :=
  (forall_breaks.2 (by decide) : ∀ c ∈ breaks, ofChar '-' ≠ c) c hc

theorem run_break (hp : p c = false) : run p (s ++ c :: t) = run p s := by
  unfold run
  induction s with
  | nil =>
    rw [List.nil_append, List.takeWhile_cons, if_neg (by rw [hp]; exact Bool.false_ne_true)]
    rfl
  | cons u s ih =>
    rw [List.cons_append, List.takeWhile_cons, List.takeWhile_cons]
    split
    · rw [List.length_cons, ih, List.length_cons]
    · rfl

theorem startsWithDigit_break (hc : c ∈ breaks) : startsWithDigit (s ++ c :: t) = startsWithDigit s :=
  any_head?_break (not_isDigit_of_break hc)

theorem startsHere_break (hc : c ∈ breaks) : startsHere (s ++ c :: t) = startsHere s := by
  cases s with
  | nil => rcases mem_breaks.1 hc with rfl | rfl | rfl | rfl | rfl | rfl <;> rfl
  | cons u r =>
    have rest : startsWithDigit (r ++ c :: t) = startsWithDigit r := startsWithDigit_break hc
    unfold startsHere
    rw [startsWithDigit_break hc, List.cons_append, List.drop_succ_cons, List.drop_zero, rest]
    rfl

theorem fractionLength_break (hc : c ∈ breaks) : fractionLength (s ++ c :: t) = fractionLength s := by
  cases s with
  | nil => rcases mem_breaks.1 hc with rfl | rfl | rfl | rfl | rfl | rfl <;> rfl
  | cons u r =>
    unfold fractionLength
    rw [List.cons_append, List.drop_succ_cons, List.drop_zero, startsWithDigit_break hc,
      run_break (not_isDigit_of_break hc)]
    rfl

theorem exponentLength_break (hc : c ∈ breaks) : exponentLength (s ++ c :: t) = exponentLength s := by
  match s with
  | [] => rcases mem_breaks.1 hc with rfl | rfl | rfl | rfl | rfl | rfl <;> rfl
  | [u] => rcases mem_breaks.1 hc with rfl | rfl | rfl | rfl | rfl | rfl <;> rfl
  | u :: v :: r =>
    have digit : startsWithDigit (v :: (r ++ c :: t)) = startsWithDigit (v :: r) := rfl
    have run : run CodeUnit.isDigit (v :: (r ++ c :: t)) = run CodeUnit.isDigit (v :: r) :=
      run_break (s := v :: r) (not_isDigit_of_break hc)
    unfold exponentLength
    simp only [List.cons_append, List.drop_succ_cons, List.drop_zero, List.head?_cons, digit, run,
      startsWithDigit_break hc, run_break (not_isDigit_of_break hc)]
    rfl

theorem radix?_break (hc : c ∈ breaks) : radix? (s ++ c :: t) = radix? s := by
  have plain : ∀ c ∈ breaks, c ∉ Text.ofString "0x" ∧ c ∉ Text.ofString "0b" := forall_breaks.2 (by decide)
  unfold radix?
  simp only [prefix_break (plain c hc).1, prefix_break (plain c hc).2]

theorem not_break_of_radix? {digit : CodeUnit → Bool} {base : Nat} (h : radix? s = some (digit, base)) :
    ∀ c ∈ breaks, digit c = false := by
  unfold radix? at h
  split at h
  · cases h
    exact forall_breaks.2 (by decide)
  split at h
  · cases h
    exact forall_breaks.2 (by decide)
  · cases h

theorem readDecimal_break (hc : c ∈ breaks) {negative : Bool} {sign : Nat} (inside : sign ≤ s.length) :
    readDecimal (s ++ c :: t) negative sign = readDecimal s negative sign := by
  have digits := run_le CodeUnit.isDigit (s.drop sign)
  rw [List.length_drop] at digits
  have whole : sign + run CodeUnit.isDigit (s.drop sign) ≤ s.length := by omega
  have fraction := fractionLength_le (s.drop (sign + run CodeUnit.isDigit (s.drop sign)))
  rw [List.length_drop] at fraction
  have decimal : sign + run CodeUnit.isDigit (s.drop sign) +
      fractionLength (s.drop (sign + run CodeUnit.isDigit (s.drop sign))) ≤ s.length := by omega
  have exponent := exponentLength_le (s.drop (sign + run CodeUnit.isDigit (s.drop sign) +
    fractionLength (s.drop (sign + run CodeUnit.isDigit (s.drop sign)))))
  rw [List.length_drop] at exponent
  unfold readDecimal
  simp only [List.drop_append_of_le_length inside, run_break (not_isDigit_of_break hc),
    List.drop_append_of_le_length whole, fractionLength_break hc, List.drop_append_of_le_length decimal,
    exponentLength_break hc]
  rw [List.take_append_of_le_length (by rw [List.length_drop]; omega), List.take_append_of_le_length (by omega)]

theorem signLength_break (hc : c ∈ breaks) : signLength (s ++ c :: t) = signLength s := by
  unfold signLength
  simp only [head?_break (minus_ne_of_break hc)]

theorem signLength_le (s : Text) : signLength s ≤ s.length := by
  cases s with
  | nil => exact Nat.le_refl 0
  | cons u r =>
    unfold signLength
    split
    · exact Nat.succ_le_succ (Nat.zero_le _)
    · exact Nat.zero_le _

theorem read_break (hc : c ∈ breaks) : read (s ++ c :: t) = read s := by
  have sign := signLength_le s
  rw [read_eq, read_eq, signLength_break hc, List.drop_append_of_le_length sign, radix?_break hc,
    readDecimal_break hc sign]
  simp only [head?_break (minus_ne_of_break hc)]
  cases radix : radix? (s.drop (signLength s)) with
  | none => rfl
  | some x =>
    obtain ⟨digit, base⟩ := x
    have mark := length_of_radix? radix
    rw [List.length_drop] at mark
    have inside : signLength s + 2 ≤ s.length := by omega
    have runs : run digit (s.drop (signLength s + 2) ++ c :: t) = run digit (s.drop (signLength s + 2)) :=
      run_break (not_break_of_radix? radix c hc)
    have digits := run_le digit (s.drop (signLength s + 2))
    simp only [List.drop_append_of_le_length inside, runs, List.take_append_of_le_length digits]

theorem rangeLength_break (hc : c ∈ breaks) : rangeLength (s ++ c :: t) = rangeLength s := by
  have three (h : Text.ofString "..." <+: s) : 3 ≤ s.length := length_ellipsis ▸ h.length_le
  have two (h : Text.ofString ".." <+: s) : 2 ≤ s.length := length_dots ▸ h.length_le
  have plain : ∀ c ∈ breaks, c ∉ Text.ofString "..." ∧ c ∉ Text.ofString ".." := forall_breaks.2 (by decide)
  unfold rangeLength
  simp only [prefix_break (plain c hc).1, prefix_break (plain c hc).2]
  split
  · rw [List.drop_append_of_le_length (three ‹_›), startsHere_break hc]
  split
  · rw [List.drop_append_of_le_length (two ‹_›), startsHere_break hc]
  · rfl

end Numeral

/-! ## Quoted literals -/

namespace Quoted

/-- What a closing quote ends does not go on behind it. -/
theorem readText_append : ∀ {s content : Text} {n : Nat}, readText s = .closed content n →
    ∀ t : Text, readText (s ++ t) = .closed content n
  | [], _, _, h, _ => by cases h
  | u :: r, content, n, h, t => by
    rw [readText.eq_def] at h
    rw [List.cons_append, readText.eq_def]
    simp only [] at h ⊢
    split at h
    · rename_i quote
      rw [if_pos quote]
      exact h
    rename_i quote
    rw [if_neg quote]
    split at h
    · rename_i backslash
      rw [if_pos backslash]
      match r, h with
      | [], h => cases h
      | e :: r, h =>
        obtain ⟨c, m, rest, rfl, rfl⟩ := prepend_eq_closed h
        simp only [List.cons_append, readText_append rest]
        rfl
    · rename_i backslash
      obtain ⟨c, m, rest, rfl, rfl⟩ := prepend_eq_closed h
      rw [if_neg backslash, readText_append rest]
      rfl

theorem readBytes_append {e : ByteEncoding} : ∀ {s content : Text} {n : Nat}, readBytes e s = .closed content n →
    ∀ t : Text, readBytes e (s ++ t) = .closed content n
  | [], _, _, h, _ => by cases h
  | u :: r, content, n, h, t => by
    rw [readBytes.eq_def] at h
    rw [List.cons_append, readBytes.eq_def]
    simp only [] at h ⊢
    split at h
    · rename_i quote
      rw [if_pos quote]
      exact h
    rename_i quote
    rw [if_neg quote]
    split at h
    · rename_i backslash
      rw [if_pos backslash]
      match r, h with
      | [], h => cases h
      | q :: r, h =>
        simp only [List.cons_append] at h ⊢
        split at h
        · rename_i escaped
          obtain ⟨c, m, rest, rfl, rfl⟩ := prepend_eq_closed h
          rw [if_pos escaped, readBytes_append rest]
          rfl
        · rename_i escaped
          obtain ⟨c, m, rest, rfl, rfl⟩ := prepend_eq_closed h
          rw [if_neg escaped, ← List.cons_append, readBytes_append rest]
          rfl
    · rename_i backslash
      obtain ⟨c, m, rest, rfl, rfl⟩ := prepend_eq_closed h
      rw [if_neg backslash, readBytes_append rest]
      rfl

end Quoted

/-! ## Tokens -/

namespace Scan

variable {body : Token.Body}

theorem nameLength_break (hc : c ∈ breaks) : nameLength (s ++ c :: t) = nameLength s := by
  induction s with
  | nil => rcases mem_breaks.1 hc with rfl | rfl | rfl | rfl | rfl | rfl <;> rfl
  | cons u s ih => rw [List.cons_append, nameLength, nameLength, ih]

/-- Only slashes stand before the equals sign in a symbol. -/
theorem slash_of_symbol {q : Text × Mark} (hq : q ∈ symbols) (h : u :: r ++ [ofChar '='] <+: q.1) :
    (u :: r).getLast? = some (ofChar '/') := by
  have slashes : ∀ q ∈ symbols, ∀ k < q.1.length, q.1[k + 1]? = some (ofChar '=') →
      (q.1.take (k + 1)).getLast? = some (ofChar '/') := by decide
  obtain ⟨more, split⟩ := h
  have inside : r.length < q.1.length := by
    rw [← split, List.length_append, List.length_append, List.length_cons]
    omega
  have taken := slashes q hq r.length inside (by rw [← split]; simp)
  rwa [← split, List.append_assoc, ← List.length_cons, List.take_left] at taken

theorem symbol?_break (h : BreaksOff (u :: r) c) : symbol? (u :: r ++ c :: t) = symbol? (u :: r) := by
  refine List.find?_congr fun q hq => decide_eq_decide.2
    ⟨fun front => ?_, fun front => front.trans (List.prefix_append _ _)⟩
  rcases h with space | ⟨rfl, slashless⟩
  · have apart : separators.all (fun c => symbols.all fun q => decide (c ∉ q.1)) = true := by decide
    have plain : c ∉ q.1 := of_decide_eq_true (List.all_eq_true.1 (List.all_eq_true.1 apart c space) q hq)
    exact (prefix_break plain).1 front
  · exact Decidable.byContradiction fun none => slashless (slash_of_symbol hq (prefix_over_break front none))

theorem hash_break (hc : c ∈ breaks) : hash (r ++ c :: t) = hash r := by
  have major := Numeral.run_le CodeUnit.isDigit r
  have number := Numeral.fractionLength_le (r.drop (Numeral.run CodeUnit.isDigit r))
  rw [List.length_drop] at number
  unfold hash
  simp only [Numeral.run_break (Numeral.not_isDigit_of_break hc), List.drop_append_of_le_length major,
    Numeral.fractionLength_break hc, List.take_append_of_le_length major]
  by_cases none : Numeral.fractionLength (r.drop (Numeral.run CodeUnit.isDigit r)) = 0
  · simp only [none, if_true]
  · rw [List.drop_append_of_le_length (by omega), List.take_append_of_le_length (by rw [List.length_drop]; omega)]

theorem mark_break (h : BreaksOff (u :: r) c) : mark u (r ++ c :: t) = mark u r := by
  have symbol : symbol? (u :: (r ++ c :: t)) = symbol? (u :: r) := symbol?_break h
  have starts : startsWithName (r ++ c :: t) = startsWithName r :=
    any_head?_break ((forall_breaks.2 (by decide) : ∀ c ∈ breaks, CodeUnit.startsName c = false) c h.mem)
  unfold mark
  rw [symbol, hash_break h.mem, starts, nameLength_break h.mem]

theorem number_break (hc : c ∈ breaks) (starts : Numeral.startsHere s = true) : number (s ++ c :: t) = number s := by
  unfold number
  rw [Numeral.read_break hc]
  cases read : Numeral.read s with
  | noDigits used => rfl
  | literal lower n =>
    obtain ⟨_, inside⟩ := Numeral.read_length starts read
    simp only [List.drop_append_of_le_length inside, Numeral.rangeLength_break hc]
    split
    · rfl
    · rename_i some
      obtain ⟨_, _, starts'⟩ := Numeral.rangeLength_spec some
      rw [List.drop_drop] at starts'
      have inside' := Numeral.lt_length_of_startsHere starts'
      rw [List.drop_append_of_le_length (Nat.le_of_lt inside'), Numeral.read_break hc]

theorem text_break (h : text r = .token body n) : text (r ++ t) = .token body n := by
  unfold text at h ⊢
  split at h
  · rename_i content m read
    rw [Quoted.readText_append read]
    exact h
  · cases h

theorem bytes_break {e : ByteEncoding} {skip : Nat} (inside : skip ≤ r.length) (h : bytes e skip r = .token body n) :
    bytes e skip (r ++ t) = .token body n := by
  unfold bytes at h ⊢
  split at h
  · rename_i content m read
    rw [List.drop_append_of_le_length inside, Quoted.readBytes_append read]
    exact h
  · cases h

end Scan

/-- **A token at the end of a text is read from the text with a break and more behind it too.** -/
theorem scan_break (apart : BreaksOff (u :: r) c) {body : Token.Body} (h : scan u r = .token body n) :
    scan u (r ++ c :: t) = .token body n := by
  have hc := apart.mem
  have quote : (r ++ c :: t).head? = some (ofChar '\'') ↔ r.head? = some (ofChar '\'') :=
    head?_break ((forall_breaks.2 (by decide) : ∀ c ∈ breaks, ofChar '\'' ≠ c) c hc)
  have sixtyFour : Text.ofString "64'" <+: r ++ c :: t ↔ Text.ofString "64'" <+: r :=
    prefix_break ((forall_breaks.2 (by decide) : ∀ c ∈ breaks, c ∉ Text.ofString "64'") c hc)
  have starts : Numeral.startsHere (u :: (r ++ c :: t)) = Numeral.startsHere (u :: r) :=
    Numeral.startsHere_break hc (s := u :: r)
  rw [scan_eq] at h ⊢
  simp only [quote, sixtyFour, starts]
  split
  · rename_i is
    rw [if_pos is] at h
    exact Scan.text_break h
  rename_i is
  rw [if_neg is] at h
  split
  · rename_i is
    rw [if_pos is] at h
    exact Scan.bytes_break (Nat.zero_le _) h
  rename_i is
  rw [if_neg is] at h
  split
  · -- the mark before the quote belongs to the token as well, so it has to be there
    rename_i is
    rw [if_pos is] at h
    have present : r.head? = some (ofChar '\'') := of_decide_eq_true (Bool.and_eq_true_iff.1 is).2
    refine Scan.bytes_break ?_ h
    cases r with
    | nil => cases present
    | cons => exact Nat.succ_le_succ (Nat.zero_le _)
  rename_i is
  rw [if_neg is] at h
  split
  · rename_i is
    rw [if_pos is] at h
    have present : Text.ofString "64'" <+: r := of_decide_eq_true (Bool.and_eq_true_iff.1 is).2
    exact Scan.bytes_break (length_base64Mark ▸ present.length_le) h
  rename_i is
  rw [if_neg is] at h
  split
  · rename_i is
    rw [if_pos is] at h
    exact (Scan.number_break hc is).trans h
  rename_i is
  rw [if_neg is] at h
  rw [Scan.nameLength_break hc, Scan.mark_break apart]
  exact h

/-! ## Reading on -/

namespace Cursor

variable {l : Location} {token : Token} {ts us : List Token} {fault : Option LexFault}

/-- Blanks that end before the text does end there with another text behind it too. -/
theorem triviaLength_break_of_lt : ∀ {comment : Bool} {s : Text}, triviaLength comment s < s.length →
    triviaLength comment (s ++ c :: t) = triviaLength comment s
  | _, [], h => absurd h (Nat.lt_irrefl _)
  | comment, u :: s, h => by
    have rest (b : Bool) (h : triviaLength b s + 1 < s.length + 1) :
        triviaLength b (s ++ c :: t) + 1 = triviaLength b s + 1 := by
      rw [triviaLength_break_of_lt (Nat.lt_of_succ_lt_succ h)]
    rw [triviaLength] at h
    rw [List.cons_append, triviaLength, triviaLength]
    split
    · rw [if_pos ‹_›] at h
      exact rest _ h
    rw [if_neg ‹_›] at h
    split
    · rw [if_pos ‹_›] at h
      exact rest _ h
    rw [if_neg ‹_›] at h
    split
    · rw [if_pos ‹_›] at h
      exact rest _ h
    · rfl

/-- Blanks up to the end of a text go on behind the line break, which ends a comment. -/
theorem triviaLength_break : ∀ {comment : Bool} {s : Text}, triviaLength comment s = s.length →
    triviaLength comment (s ++ ofChar '\n' :: t) = s.length + 1 + triviaLength false t
  | comment, [], _ => by
    rw [List.nil_append, triviaLength]
    cases comment <;> simp [isSpace, Nat.add_comm]
  | comment, u :: s, h => by
    have rest (b : Bool) (h : triviaLength b s + 1 = s.length + 1) :
        triviaLength b (s ++ ofChar '\n' :: t) + 1 = s.length + 1 + 1 + triviaLength false t := by
      rw [triviaLength_break (Nat.succ.inj h), Nat.add_right_comm]
    rw [triviaLength] at h
    rw [List.cons_append, triviaLength, List.length_cons]
    split
    · rw [if_pos ‹_›] at h
      exact rest _ h
    rw [if_neg ‹_›] at h
    split
    · rw [if_pos ‹_›] at h
      exact rest _ h
    rw [if_neg ‹_›] at h
    split
    · rw [if_pos ‹_›] at h
      exact rest _ h
    · rw [if_neg ‹_›] at h
      cases h

theorem skip_of_le (l : Location) (h : n ≤ s.length) : skip n ⟨l, s⟩ = ⟨l.past (s.take n), s.drop n⟩ := by
  have split := skip_append l (s.take n) (s.drop n)
  rwa [List.take_append_drop, List.length_take, Nat.min_eq_left h] at split

theorem skip_append_of_le (l : Location) (h : n ≤ s.length) :
    skip n ⟨l, s ++ t⟩ = ⟨(skip n ⟨l, s⟩).place, (skip n ⟨l, s⟩).rest ++ t⟩ := by
  have longer : n ≤ (s ++ t).length := by rw [List.length_append]; omega
  rw [skip_of_le l longer, skip_of_le l h, List.take_append_of_le_length h, List.drop_append_of_le_length h]

theorem skipTrivia_eq (l : Location) (s : Text) :
    skipTrivia ⟨l, s⟩ = ⟨l.past (s.take (triviaLength false s)), s.drop (triviaLength false s)⟩ :=
  skip_of_le l (triviaLength_le false s)

/-- Where a token stands, where reading goes on behind it, and that it is read the same wherever its text is. -/
theorem next_anywhere (h : (next ⟨l, s⟩).1 = .ok token) : ∃ gap rest, s = gap ++ (token.text ++ rest) ∧
    token.location = l.past gap ∧ ∀ l' : Location, next ⟨l', s⟩ =
      (.ok ⟨token.body, token.text, l'.past gap⟩, ⟨(l'.past gap).past token.text, rest⟩) := by
  have blanks := List.take_append_drop (triviaLength false s) s
  unfold next at h
  rw [skipTrivia_eq] at h
  have skipped (l' : Location) : next ⟨l', s⟩ =
      readHere ⟨l'.past (s.take (triviaLength false s)), s.drop (triviaLength false s)⟩ := by
    unfold next
    rw [skipTrivia_eq]
  simp only [skipped]
  generalize s.take (triviaLength false s) = gap at *
  generalize s.drop (triviaLength false s) = left at *
  unfold readHere at h ⊢
  cases left with
  | nil =>
    cases h
    exact ⟨gap, [], blanks.symm, rfl, fun _ => rfl⟩
  | cons u r =>
    simp only [] at h ⊢
    split at h
    · rename_i body n scanned
      cases h
      have inside : n + 1 ≤ (u :: r).length := Nat.succ_le_succ (scan_extent scanned)
      refine ⟨gap, r.drop n, ?_, rfl, fun l' => ?_⟩
      · rw [List.cons_append, List.take_append_drop]
        exact blanks.symm
      · rw [skip_of_le _ inside]
        rfl
    · cases h

theorem readHere_break (hc : c ∈ separators) (h : (readHere ⟨l, s⟩).1 = .ok token)
    (more : token.is .endOfInput = false) : readHere ⟨l, s ++ c :: t⟩ =
      (.ok token, ⟨(readHere ⟨l, s⟩).2.place, (readHere ⟨l, s⟩).2.rest ++ c :: t⟩) := by
  cases s with
  | nil =>
    cases h
    cases more
  | cons u r =>
    unfold readHere at h ⊢
    simp only [List.cons_append] at h ⊢
    split at h
    · rename_i body n scanned
      cases h
      have inside := scan_extent scanned
      have taken : n + 1 ≤ (u :: r).length := Nat.succ_le_succ inside
      have on := skip_append_of_le (t := c :: t) l taken
      rw [List.cons_append] at on
      simp only [scan_break (.inl hc) scanned, List.take_append_of_le_length inside, on]
    · cases h

/-- A token that a text is read to is read from the text with a blank and more behind it too. -/
theorem next_break (hc : c ∈ separators) (h : (next ⟨l, s⟩).1 = .ok token) (more : token.is .endOfInput = false) :
    next ⟨l, s ++ c :: t⟩ =
      (.ok token, ⟨(next ⟨l, s⟩).2.place, (next ⟨l, s⟩).2.rest ++ c :: t⟩) := by
  have blanks := triviaLength_le false s
  have before : triviaLength false s < s.length := by
    refine Nat.lt_of_le_of_ne blanks fun all => ?_
    unfold next at h
    rw [skipTrivia_eq, all, List.drop_length] at h
    cases h
    cases more
  have skipped : skipTrivia ⟨l, s ++ c :: t⟩ =
      ⟨(skipTrivia ⟨l, s⟩).place, (skipTrivia ⟨l, s⟩).rest ++ c :: t⟩ := by
    unfold skipTrivia
    simp only [triviaLength_break_of_lt before]
    exact skip_append_of_le l blanks
  unfold next at h ⊢
  rw [skipped]
  exact readHere_break hc h more

/-- Where a text ends, reading goes on behind the line break. -/
theorem next_break_of_end (h : (next ⟨l, s⟩).1 = .ok token) (ends : token.is .endOfInput = true) :
    next ⟨l, s ++ ofChar '\n' :: t⟩ = next ⟨(l.past s).advance (ofChar '\n'), t⟩ := by
  obtain ⟨all, _⟩ := next_end h ends
  have skipped : skipTrivia ⟨l, s ++ ofChar '\n' :: t⟩ = skipTrivia ⟨(l.past s).advance (ofChar '\n'), t⟩ := by
    have split : s ++ ofChar '\n' :: t = s ++ [ofChar '\n'] ++ t := by simp
    have length : s.length + 1 = (s ++ [ofChar '\n']).length := by simp
    rw [skipTrivia_eq, skipTrivia_eq, triviaLength_break all, length, split, List.take_length_add_append,
      List.drop_length_add_append, Layout.past_append, Layout.past_append]
    rfl
  unfold next
  rw [skipped]

/-- Where the text ends is the same from one token to the next. -/
theorem past_next {c : Cursor} (h : c.next.1 = .ok token) :
    c.next.2.place.past c.next.2.rest = c.place.past c.rest := by
  have skip {c : Cursor} {n : Nat} (inside : n ≤ c.rest.length) :
      (c.skip n).place.past (c.skip n).rest = c.place.past c.rest := by
    obtain ⟨l, s⟩ := c
    rw [skip_of_le l inside, ← Layout.past_append, List.take_append_drop]
  have trivia := skip (triviaLength_le false c.rest)
  rw [← trivia]
  unfold next skipTrivia at h ⊢
  generalize c.skip (triviaLength false c.rest) = c at *
  obtain ⟨l, _ | ⟨u, r⟩⟩ := c
  · rfl
  · unfold readHere at h ⊢
    simp only [] at h ⊢
    split at h
    · rename_i scanned
      exact skip (Nat.succ_le_succ (scan_extent scanned))
    · cases h

theorem Run.of_next_eq {c c' : Cursor} (h : c.Run ts fault) (same : c'.next = c.next) : c'.Run ts fault := by
  cases h with
  | ended h ends => exact .ended ((congrArg Prod.fst same).trans h) ends
  | fault h => exact .fault ((congrArg Prod.fst same).trans h)
  | token h more rest => exact .token ((congrArg Prod.fst same).trans h) more (same ▸ rest)

/-- **A text and another one behind a line break are read to the tokens of both.** -/
theorem Run.join {c : Cursor} (h : c.Run ts fault) (whole : fault = none) {fault' : Option LexFault}
    (h' : Run ⟨(c.place.past c.rest).advance (ofChar '\n'), t⟩ us fault') :
    Run ⟨c.place, c.rest ++ ofChar '\n' :: t⟩ (ts.dropLast ++ us) fault' := by
  induction h with
  | ended h ends => exact h'.of_next_eq (next_break_of_end h ends)
  | fault => cases whole
  | @token c token ts fault h more rest ih =>
    have read := next_break (t := t) (mem_separators.2 (.inr (.inr (.inr (.inl rfl))))) h more
    rw [← past_next h] at h'
    rw [List.dropLast_cons_of_ne_nil (rest.ofCursor_eq whole).1, List.cons_append]
    refine .token (congrArg Prod.fst read) more ?_
    rw [read]
    exact ih whole h'

end Cursor
end Cddl
