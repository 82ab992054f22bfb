import Cddl.Proofs.Token.Longest
import Cddl.Proofs.Token.Spaced
import Mathlib.Data.List.Induction
import Mathlib.Data.List.TakeWhile
import Mathlib.Data.Nat.Digits.Defs
/-!
# Numerals are as long as they can be

The form of a numeral is told from its parts, each with the number that it denotes (`Denotes`).  What is read as a
numeral has the form and is the longest text of it; a range operator behind it that joins it to another numeral makes
one token of the two (`numbers_longest`).
-/
namespace Cddl

open CodeUnit (ofChar)

variable {p : CodeUnit → Bool} {s t b q ds f e : Text} {u : CodeUnit} {v : Literal} {negative : Bool} {n : Nat}
  {m : Option Nat}

/-! ## The form of a numeral -/

/-- Digits, one at least. -/
structure Digits (digit : CodeUnit → Bool) (ds : Text) : Prop where
  some : ds ≠ []
  all : ∀ u ∈ ds, digit u = true

/-- The number that a digit stands for: its index among the digits, in lower or in upper case. -/
def CodeUnit.standsFor (u : CodeUnit) : Nat :=
  min (List.idxOf u (Text.ofString "0123456789abcdef")) (List.idxOf u (Text.ofString "0123456789ABCDEF"))

/-- The number that digits denote in a base; the last one counts ones. -/
def Text.denoted (base : Nat) (ds : Text) : Nat := Nat.ofDigits base (ds.reverse.map CodeUnit.standsFor)

inductive FractionForm : Text → Prop
  | none : FractionForm []
  | some {ds : Text} (h : Digits CodeUnit.isDigit ds) : FractionForm (ofChar '.' :: ds)

inductive ExponentForm : Text → Prop
  | none : ExponentForm []
  | unsigned {letter : CodeUnit} {ds : Text} (is : letter = ofChar 'e' ∨ letter = ofChar 'E')
      (h : Digits CodeUnit.isDigit ds) : ExponentForm (letter :: ds)
  | signed {letter sign : CodeUnit} {ds : Text} (is : letter = ofChar 'e' ∨ letter = ofChar 'E')
      (sign_is : sign = ofChar '+' ∨ sign = ofChar '-') (h : Digits CodeUnit.isDigit ds) :
      ExponentForm (letter :: sign :: ds)

/-- The forms of a numeral behind its sign, each with the number that it denotes if it has neither fraction nor
exponent. -/
inductive MagnitudeForm : Text → Option Nat → Prop
  | hexadecimal {ds : Text} (h : Digits CodeUnit.isHexDigit ds) :
      MagnitudeForm (Text.ofString "0x" ++ ds) (some (ds.denoted 16))
  | binary {ds : Text} (h : Digits CodeUnit.isBinaryDigit ds) :
      MagnitudeForm (Text.ofString "0b" ++ ds) (some (ds.denoted 2))
  | decimal {ds f e : Text} (h : Digits CodeUnit.isDigit ds) (hf : FractionForm f) (he : ExponentForm e) :
      MagnitudeForm (ds ++ (f ++ e)) (if f ++ e = [] then some (ds.denoted 10) else none)

def signed (negative : Bool) (t : Text) : Text := if negative then ofChar '-' :: t else t

/-- The literal that a numeral is for.  An integer is the number that the digits denote, negated if there is a sign. -/
inductive Denotes : Text → Literal → Prop
  | integer (negative : Bool) {t : Text} {n : Nat} (h : MagnitudeForm t (some n)) :
      Denotes (signed negative t) (if negative then .int (-n) else .uint n)
  | float (negative : Bool) {t : Text} (h : MagnitudeForm t none) :
      Denotes (signed negative t) (.float (.ofText (signed negative t)))

def NumeralForm (t : Text) : Prop := ∃ v, Denotes t v

/-- A digit begins the text, or one behind a minus sign does. -/
def BeginsNumeral (s : Text) : Prop :=
  ∃ u r, u.isDigit = true ∧ (s = u :: r ∨ s = ofChar '-' :: u :: r)

/-! ## Signs -/

namespace Numeral

theorem startsHere_iff : startsHere s = true ↔ BeginsNumeral s := by
  unfold startsHere startsWithDigit BeginsNumeral
  rw [Bool.or_eq_true, Bool.and_eq_true, decide_eq_true_iff]
  constructor
  · rintro (digit | ⟨minus, digit⟩)
    · obtain ⟨u, first, is⟩ := (Option.any_eq_true _ _).1 digit
      obtain ⟨r, rfl⟩ := List.head?_eq_some_iff.1 first
      exact ⟨u, r, is, .inl rfl⟩
    · obtain ⟨s, rfl⟩ := List.head?_eq_some_iff.1 minus
      obtain ⟨u, first, is⟩ := (Option.any_eq_true _ _).1 digit
      obtain ⟨r, rfl⟩ := List.head?_eq_some_iff.1 first
      exact ⟨u, r, is, .inr rfl⟩
  · rintro ⟨u, r, is, rfl | rfl⟩
    · exact .inl is
    · exact .inr ⟨rfl, is⟩

theorem signed_append (negative : Bool) (t q : Text) : signed negative t ++ q = signed negative (t ++ q) := by
  cases negative <;> rfl

theorem length_signed (negative : Bool) (t : Text) : (signed negative t).length = negative.toNat + t.length := by
  cases negative
  · exact (Nat.zero_add _).symm
  · exact Nat.add_comm _ _

theorem drop_signed (negative : Bool) (t : Text) (k : Nat) :
    (signed negative t).drop (negative.toNat + k) = t.drop k := by
  cases negative
  · exact congrArg (t.drop ·) (Nat.zero_add k)
  · rw [Bool.toNat_true, Nat.add_comm]
    rfl

theorem take_signed (negative : Bool) (t : Text) (k : Nat) :
    (signed negative t).take (negative.toNat + k) = signed negative (t.take k) := by
  cases negative
  · exact congrArg (t.take ·) (Nat.zero_add k)
  · rw [Bool.toNat_true, Nat.add_comm]
    rfl

theorem signed_drop (s : Text) : signed (s.head? = some (ofChar '-')) (s.drop (signLength s)) = s := by
  unfold signed signLength
  by_cases minus : s.head? = some (ofChar '-')
  · obtain ⟨r, rfl⟩ := List.head?_eq_some_iff.1 minus
    rfl
  · rw [if_neg minus, decide_eq_false minus]
    rfl

theorem head?_signed (digit : startsWithDigit b = true) (negative : Bool) :
    decide ((signed negative b).head? = some (ofChar '-')) = negative := by
  cases negative
  · refine decide_eq_false fun minus => ?_
    have minus : b.head? = some (ofChar '-') := minus
    rw [startsWithDigit, minus] at digit
    exact absurd digit (by decide)
  · rfl

theorem signLength_signed (digit : startsWithDigit b = true) (negative : Bool) :
    signLength (signed negative b) = negative.toNat := by
  have sign := head?_signed digit negative
  unfold signLength
  cases negative
  · exact if_neg (of_decide_eq_false sign)
  · rfl

/-- How much of a text a fraction and an exponent take. -/
def tailLength (s : Text) : Nat := fractionLength s + exponentLength (s.drop (fractionLength s))

/-- What is left of a text behind the digits at its front. -/
def behindDigits (s : Text) : Text := s.drop (run CodeUnit.isDigit s)

theorem readDecimal_signed (negative : Bool) (b : Text) : readDecimal (signed negative b) negative negative.toNat =
    if tailLength (behindDigits b) = 0 then
      .literal (integer negative (Text.toNat 10 (b.take (run CodeUnit.isDigit b))))
        (negative.toNat + (run CodeUnit.isDigit b + tailLength (behindDigits b)))
    else .literal (.float (.ofText (signed negative (b.take (run CodeUnit.isDigit b + tailLength (behindDigits b))))))
      (negative.toNat + (run CodeUnit.isDigit b + tailLength (behindDigits b))) := by
  have whole : (signed negative b).drop negative.toNat = b := drop_signed negative b 0
  unfold readDecimal tailLength behindDigits
  simp only [whole, Nat.add_assoc, drop_signed, take_signed, List.drop_drop]

theorem read_signed (digit : startsWithDigit b = true) (negative : Bool) : read (signed negative b) =
    match radix? b with
    | some (digit, base) =>
      if run digit (b.drop 2) = 0 then .noDigits (negative.toNat + 2)
      else .literal (integer negative (Text.toNat base ((b.drop 2).take (run digit (b.drop 2)))))
        (negative.toNat + (2 + run digit (b.drop 2)))
    | none => readDecimal (signed negative b) negative negative.toNat := by
  have whole : (signed negative b).drop negative.toNat = b := drop_signed negative b 0
  rw [read_eq, signLength_signed digit, head?_signed digit, whole]
  cases radix? b with
  | none => rfl
  | some x => simp only [drop_signed, Nat.add_assoc]

/-! ## What is read has the form -/

theorem take_run (p : CodeUnit → Bool) (s : Text) : s.take (run p s) = s.takeWhile p :=
  (List.prefix_iff_eq_take.1 (List.takeWhile_prefix p)).symm

theorem digits_take (some : run p s ≠ 0) : Digits p (s.take (run p s)) where
  some := by
    rw [take_run]
    exact List.ne_nil_of_length_pos (Nat.pos_of_ne_zero some)
  all u hu := by
    rw [take_run] at hu
    exact List.mem_takeWhile_imp hu

theorem run_ne_zero (h : s.head?.any p = true) : run p s ≠ 0 := Nat.ne_of_gt (run_pos h)

theorem fraction_take (s : Text) : FractionForm (s.take (fractionLength s)) := by
  unfold fractionLength
  split
  · rename_i h
    obtain ⟨dot, digit⟩ := Bool.and_eq_true_iff.1 h
    obtain ⟨r, rfl⟩ := List.head?_eq_some_iff.1 (of_decide_eq_true dot)
    exact .some (digits_take (run_ne_zero digit))
  · exact .none

theorem exponent_take (s : Text) : ExponentForm (s.take (exponentLength s)) := by
  unfold exponentLength
  split
  · rename_i letter
    obtain ⟨l, r, rfl, is⟩ : ∃ l r, s = l :: r ∧ (l = ofChar 'e' ∨ l = ofChar 'E') := by
      rw [Bool.or_eq_true, decide_eq_true_iff, decide_eq_true_iff] at letter
      rcases letter with first | first
      · obtain ⟨r, rfl⟩ := List.head?_eq_some_iff.1 first
        exact ⟨_, r, rfl, .inl rfl⟩
      · obtain ⟨r, rfl⟩ := List.head?_eq_some_iff.1 first
        exact ⟨_, r, rfl, .inr rfl⟩
    split
    · rename_i digit
      exact .unsigned is (digits_take (run_ne_zero digit))
    split
    · rename_i h
      obtain ⟨sign, digit⟩ := Bool.and_eq_true_iff.1 h
      obtain ⟨a, first, sign⟩ := (Option.any_eq_true _ _).1 sign
      obtain ⟨r, rfl⟩ := List.head?_eq_some_iff.1 first
      exact .signed is (by simpa [isSign] using sign) (digits_take (run_ne_zero digit))
    · exact .none
  · exact .none

theorem isHexDigit_of_isDigit (h : u.isDigit = true) : u.isHexDigit = true := by
  rw [CodeUnit.isHexDigit, h]
  rfl

/-- The digits of every base are among those of the largest. -/
theorem isHexDigit_of_radix? {digit : CodeUnit → Bool} {base : Nat} (radix : radix? b = some (digit, base))
    (h : digit u = true) : u.isHexDigit = true := by
  unfold radix? at radix
  split at radix
  · cases radix
    exact h
  split at radix
  · cases radix
    rw [CodeUnit.isBinaryDigit, Bool.or_eq_true, decide_eq_true_iff, decide_eq_true_iff] at h
    rcases h with rfl | rfl <;> decide
  · cases radix

theorem standsFor_eq (h : u.isHexDigit = true) : u.standsFor = u.digitValue := by
  have listed : ∀ n < 103, CodeUnit.isHexDigit (.ofNat n) = true →
      CodeUnit.standsFor (.ofNat n) = CodeUnit.digitValue (.ofNat n) := by decide +kernel
  have low : u.toNat < 103 := by
    have nine : (ofChar '9').toNat = 57 := by decide
    have f : (ofChar 'f').toNat = 102 := by decide
    have F : (ofChar 'F').toNat = 70 := by decide
    simp only [CodeUnit.isHexDigit, CodeUnit.isDigit, Bool.or_eq_true, Bool.and_eq_true, decide_eq_true_eq,
      UInt16.le_iff_toNat_le, nine, f, F] at h
    omega
  rw [← UInt16.ofNat_toNat (x := u)] at h ⊢
  exact listed _ low h

theorem toNat_eq_denoted (base : Nat) (h : ∀ u ∈ ds, u.isHexDigit = true) : Text.toNat base ds = ds.denoted base := by
  unfold Text.denoted
  induction ds using List.reverseRecOn with
  | nil => rfl
  | append_singleton ds u ih =>
    obtain ⟨front, last⟩ := List.forall_mem_append.1 h
    have digit : u.isHexDigit = true := last u List.mem_cons_self
    rw [Text.toNat_append, List.foldl_cons, List.foldl_nil, ih front, List.reverse_append, List.reverse_singleton,
      List.singleton_append, List.map_cons, Nat.ofDigits_cons, Nat.mul_comm, Nat.add_comm,
      standsFor_eq digit]

theorem tail_take (s : Text) : ∃ f e, FractionForm f ∧ ExponentForm e ∧ s.take (tailLength s) = f ++ e :=
  ⟨_, _, fraction_take s, exponent_take (s.drop (fractionLength s)), List.take_add⟩

theorem tailLength_le (s : Text) : tailLength s ≤ s.length := by
  have fraction := fractionLength_le s
  have exponent := exponentLength_le (s.drop (fractionLength s))
  rw [List.length_drop] at exponent
  unfold tailLength
  omega

theorem decimal_take (digit : startsWithDigit b = true) :
    MagnitudeForm (b.take (run CodeUnit.isDigit b + tailLength (behindDigits b)))
      (if tailLength (behindDigits b) = 0 then some (Text.denoted 10 (b.take (run CodeUnit.isDigit b))) else none) := by
  obtain ⟨f, e, fraction, exponent, tail⟩ := tail_take (behindDigits b)
  have none : tailLength (behindDigits b) = 0 ↔ f ++ e = [] := by
    have le := tailLength_le (behindDigits b)
    rw [← tail, ← List.length_eq_zero_iff, List.length_take, Nat.min_eq_left le]
  have split : b.take (run CodeUnit.isDigit b + tailLength (behindDigits b)) =
      b.take (run CodeUnit.isDigit b) ++ (f ++ e) := by
    rw [List.take_add, ← tail]
    rfl
  rw [split]
  simp only [none]
  exact .decimal (digits_take (run_ne_zero digit)) fraction exponent

/-- The digits behind a radix mark are a numeral together with it. -/
theorem radix_take {digit : CodeUnit → Bool} {base : Nat} (radix : radix? b = some (digit, base))
    (some : run digit (b.drop 2) ≠ 0) : MagnitudeForm (b.take (2 + run digit (b.drop 2)))
      (.some (Text.denoted base ((b.drop 2).take (run digit (b.drop 2))))) := by
  have digits := digits_take some
  unfold radix? at radix
  split at radix
  · rename_i mark
    have front := List.prefix_iff_eq_take.1 mark
    rw [length_radixMarks.1] at front
    cases radix
    rw [List.take_add, ← front]
    exact .hexadecimal digits
  split at radix
  · rename_i mark
    have front := List.prefix_iff_eq_take.1 mark
    rw [length_radixMarks.2] at front
    cases radix
    rw [List.take_add, ← front]
    exact .binary digits
  · cases radix

/-- **What is read as a numeral has the form of one.** -/
theorem denotes_of_read (starts : startsHere s = true) (h : read s = .literal v n) : Denotes (s.take n) v := by
  have digit := startsWithDigit_of_startsHere starts
  rw [← signed_drop s] at h ⊢
  generalize decide (s.head? = some (ofChar '-')) = negative at *
  generalize s.drop (signLength s) = b at *
  rw [read_signed digit] at h
  cases radix : radix? b with
  | some x =>
    obtain ⟨inBase, base⟩ := x
    rw [radix] at h
    simp only [] at h
    split at h
    · cases h
    · rename_i some
      cases h
      have digits := (digits_take some).all
      rw [take_signed, toNat_eq_denoted base fun u hu => isHexDigit_of_radix? radix (digits u hu)]
      exact .integer negative (radix_take radix some)
  | none =>
    rw [radix] at h
    simp only [readDecimal_signed] at h
    have form := decimal_take digit
    split at h
    · rename_i none
      cases h
      have digits := (digits_take (run_ne_zero digit)).all
      rw [if_pos none] at form
      rw [take_signed, toNat_eq_denoted 10 fun u hu => isHexDigit_of_isDigit (digits u hu)]
      exact .integer negative form
    · rename_i some
      cases h
      rw [if_neg some] at form
      rw [take_signed]
      exact .float negative form

/-! ## No longer text has the form -/

theorem run_append_of_all (h : ∀ u ∈ ds, p u = true) (q : Text) : run p (ds ++ q) = ds.length + run p q := by
  unfold run
  rw [List.takeWhile_append_of_pos h, List.length_append]

theorem startsWithDigit_of_digits (h : Digits CodeUnit.isDigit ds) (q : Text) : startsWithDigit (ds ++ q) = true := by
  obtain ⟨u, r, rfl⟩ := List.exists_cons_of_ne_nil h.some
  exact h.all u List.mem_cons_self

/-- A fraction begins with a dot, and an exponent with its letter. -/
theorem opening_of_tail (hf : FractionForm f) (he : ExponentForm e) (first : (f ++ e).head? = some u) :
    u = ofChar '.' ∨ u = ofChar 'e' ∨ u = ofChar 'E' := by
  cases hf with
  | some => exact .inl (Option.some.inj first).symm
  | none =>
    cases he with
    | none => cases first
    | unsigned is => exact .inr (Option.some.inj first ▸ is)
    | signed is => exact .inr (Option.some.inj first ▸ is)

theorem not_isDigit_of_tail (hf : FractionForm f) (he : ExponentForm e) (some : f ++ e ≠ []) (q : Text) :
    (f ++ e ++ q).head?.any CodeUnit.isDigit = false := by
  obtain ⟨u, r, split⟩ := List.exists_cons_of_ne_nil some
  rw [split]
  rcases opening_of_tail hf he (congrArg List.head? split) with rfl | rfl | rfl <;> rfl

theorem exponentLength_letter (is : u = ofChar 'e' ∨ u = ofChar 'E') (r : Text) : exponentLength (u :: r) =
    if startsWithDigit r then run CodeUnit.isDigit r + 1
    else if r.head?.any isSign && startsWithDigit (r.drop 1) then run CodeUnit.isDigit (r.drop 1) + 2 else 0 := by
  rcases is with rfl | rfl <;> rfl

theorem le_exponentLength (he : ExponentForm e) (q : Text) : e.length ≤ exponentLength (e ++ q) := by
  cases he with
  | none => exact Nat.zero_le _
  | @unsigned letter ds is h =>
    rw [List.cons_append, exponentLength_letter is, if_pos (startsWithDigit_of_digits h q), run_append_of_all h.all,
      List.length_cons]
    omega
  | @signed letter sign ds is sign_is h =>
    have noDigit : startsWithDigit (sign :: (ds ++ q)) = false := by rcases sign_is with rfl | rfl <;> rfl
    have second : ((sign :: (ds ++ q)).head?.any isSign && startsWithDigit (ds ++ q)) = true := by
      rw [startsWithDigit_of_digits h, Bool.and_true]
      rcases sign_is with rfl | rfl <;> rfl
    rw [List.cons_append, List.cons_append, exponentLength_letter is, noDigit, if_neg Bool.false_ne_true,
      List.drop_succ_cons, List.drop_zero, if_pos second, run_append_of_all h.all, List.length_cons, List.length_cons]
    omega

theorem fractionLength_dot (h : Digits CodeUnit.isDigit ds) (q : Text) :
    fractionLength (ofChar '.' :: ds ++ q) = ds.length + 1 + run CodeUnit.isDigit q := by
  have dot (r : Text) : fractionLength (ofChar '.' :: r) =
      if startsWithDigit r then run CodeUnit.isDigit r + 1 else 0 := rfl
  rw [List.cons_append, dot, if_pos (startsWithDigit_of_digits h q), run_append_of_all h.all]
  omega

theorem le_tailLength (hf : FractionForm f) (he : ExponentForm e) (q : Text) :
    (f ++ e).length ≤ tailLength (f ++ e ++ q) := by
  have exponent := le_exponentLength he q
  unfold tailLength
  by_cases none : e = []
  · subst none
    rw [List.append_nil]
    cases hf with
    | none => exact Nat.zero_le _
    | @some ds h =>
      rw [fractionLength_dot h, List.length_cons]
      omega
  · have letter := not_isDigit_of_tail .none he none q
    have noDot : fractionLength (e ++ q) = 0 := by
      obtain ⟨u, r, rfl⟩ := List.exists_cons_of_ne_nil none
      rcases opening_of_tail .none he rfl with rfl | rfl | rfl
      · cases he with
        | unsigned is => exact absurd is (by decide)
        | signed is => exact absurd is (by decide)
      · rfl
      · rfl
    cases hf with
    | none =>
      rw [List.nil_append, noDot, List.drop_zero, Nat.zero_add]
      exact exponent
    | @some ds h =>
      have digits : run CodeUnit.isDigit (e ++ q) = 0 := run_append (s := []) rfl letter
      rw [List.append_assoc, fractionLength_dot h, digits, Nat.add_zero, ← List.length_cons, List.drop_left,
        List.length_append]
      exact Nat.add_le_add_left exponent _

theorem decimal_le (h : Digits CodeUnit.isDigit ds) (hf : FractionForm f) (he : ExponentForm e) (q : Text) :
    (ds ++ (f ++ e)).length ≤ run CodeUnit.isDigit (ds ++ (f ++ e) ++ q) +
      tailLength (behindDigits (ds ++ (f ++ e) ++ q)) := by
  unfold behindDigits
  rw [List.append_assoc]
  by_cases none : f ++ e = []
  · rw [none, List.append_nil, run_append_of_all h.all]
    omega
  · rw [run_append (List.all_eq_true.2 h.all) (not_isDigit_of_tail hf he none q), List.drop_left, List.length_append]
    exact Nat.add_le_add_left (le_tailLength hf he q) _

/-- The second unit of a decimal numeral is no radix mark. -/
theorem radix?_decimal (h : Digits CodeUnit.isDigit ds) (hf : FractionForm f) (he : ExponentForm e) :
    radix? (ds ++ (f ++ e)) = none := by
  have second {v : CodeUnit} (hv : (ds ++ (f ++ e))[1]? = some v) :
      v.isDigit = true ∨ v = ofChar '.' ∨ v = ofChar 'e' ∨ v = ofChar 'E' := by
    obtain ⟨a, ds, rfl⟩ := List.exists_cons_of_ne_nil h.some
    rw [List.cons_append, List.getElem?_cons_succ] at hv
    cases ds with
    | nil => exact .inr (opening_of_tail hf he (List.head?_eq_getElem?.trans hv))
    | cons b ds =>
      cases hv
      exact .inl (h.all _ (List.mem_cons_of_mem _ List.mem_cons_self))
  have apart {v : CodeUnit} (other : ¬ (v.isDigit = true ∨ v = ofChar '.' ∨ v = ofChar 'e' ∨ v = ofChar 'E')) :
      ¬ [ofChar '0', v] <+: ds ++ (f ++ e) := by
    rintro ⟨tail, split⟩
    exact other (second (by rw [← split]; rfl))
  unfold radix?
  rw [show Text.ofString "0x" = [ofChar '0', ofChar 'x'] by decide,
    show Text.ofString "0b" = [ofChar '0', ofChar 'b'] by decide, if_neg (apart (by decide)),
    if_neg (apart (by decide))]

theorem radix?_hexadecimal (q : Text) : radix? (Text.ofString "0x" ++ q) = some (CodeUnit.isHexDigit, 16) :=
  if_pos (List.prefix_append _ _)

theorem radix?_binary (q : Text) : radix? (Text.ofString "0b" ++ q) = some (CodeUnit.isBinaryDigit, 2) := by
  rw [radix?_cut (Nat.le_of_eq length_radixMarks.2.symm)]
  rfl

theorem MagnitudeForm.starts (form : MagnitudeForm t m) (q : Text) : startsWithDigit (t ++ q) = true := by
  cases form with
  | hexadecimal => rfl
  | binary => rfl
  | decimal h =>
    rw [List.append_assoc]
    exact startsWithDigit_of_digits h _

theorem length_le_of_magnitude (form : MagnitudeForm t m) (h : read (signed negative t ++ q) = .literal v n) :
    (signed negative t).length ≤ n := by
  rw [signed_append, read_signed (MagnitudeForm.starts form q)] at h
  rw [length_signed]
  cases form with
  | @hexadecimal ds digits =>
    have mark := length_radixMarks.1
    have taken : run CodeUnit.isHexDigit ((Text.ofString "0x" ++ ds ++ q).drop 2) =
        ds.length + run CodeUnit.isHexDigit q :=
      run_append_of_all digits.all q
    rw [List.append_assoc, radix?_hexadecimal, ← List.append_assoc] at h
    simp only [] at h
    split at h
    · cases h
    · cases h
      rw [List.length_append, mark, taken]
      omega
  | @binary ds digits =>
    have mark := length_radixMarks.2
    have taken : run CodeUnit.isBinaryDigit ((Text.ofString "0b" ++ ds ++ q).drop 2) =
        ds.length + run CodeUnit.isBinaryDigit q := run_append_of_all digits.all q
    rw [List.append_assoc, radix?_binary, ← List.append_assoc] at h
    simp only [] at h
    split at h
    · cases h
    · cases h
      rw [List.length_append, mark, taken]
      omega
  | @decimal ds f e digits hf he =>
    cases radix : radix? (ds ++ (f ++ e) ++ q) with
    | none =>
      have le := decimal_le digits hf he q
      rw [radix] at h
      simp only [readDecimal_signed] at h
      split at h <;> cases h <;> exact Nat.add_le_add_left le _
    | some x =>
      -- a single zero, which the mark would stand behind
      have short : (ds ++ (f ++ e)).length < 2 := by
        refine Decidable.byContradiction fun long => ?_
        rw [radix?_cut (Nat.not_lt.1 long), radix?_decimal digits hf he] at radix
        cases radix
      rw [radix] at h
      simp only [] at h
      split at h
      · cases h
      · cases h
        omega

/-- **A numeral is read up to the end of the longest text that has the form.** -/
theorem longest_of_read (starts : startsHere s = true) (h : read s = .literal v n) :
    Text.Longest NumeralForm (s.take n) s where
  front := List.take_prefix n s
  member := ⟨v, denotes_of_read starts h⟩
  longest := by
    rintro t ⟨q, rfl⟩ ⟨w, denotes⟩
    rw [List.length_take, Nat.min_eq_left (read_length starts h).2]
    cases denotes with
    | integer _ form => exact length_le_of_magnitude form h
    | float _ form => exact length_le_of_magnitude form h

end Numeral

/-! ## Ranges -/

/-- A text begins with a range operator: three dots where there are three, and else two. -/
def Joins (s : Text) (inclusive : Bool) (rest : Text) : Prop :=
  s = rangeMark inclusive ++ rest ∧ (inclusive = false ↔ Text.ofString "..." <+: s)

namespace Numeral

variable {inclusive : Bool} {rest : Text}

theorem rangeLength_of_joins (h : Joins s inclusive rest) (begins : BeginsNumeral rest) : rangeLength s ≠ 0 := by
  obtain ⟨rfl, three⟩ := h
  have starts := startsHere_iff.2 begins
  cases inclusive with
  | true =>
    have two : rangeLength (rangeMark true ++ rest) = 2 :=
      rangeLength_eq_two.2 ⟨fun dots => Bool.noConfusion (three.2 dots), List.prefix_append _ _, starts⟩
    rw [two]
    decide
  | false =>
    have three : rangeLength (rangeMark false ++ rest) = 3 := rangeLength_eq_three.2 ⟨List.prefix_append _ _, starts⟩
    rw [three]
    decide

theorem joins_of_rangeLength (h : rangeLength (rangeMark inclusive ++ rest) = (rangeMark inclusive).length) :
    Joins (rangeMark inclusive ++ rest) inclusive rest := by
  refine ⟨rfl, ?_⟩
  cases inclusive with
  | true => exact ⟨fun no => Bool.noConfusion no, fun dots => absurd dots (rangeLength_eq_two.1 h).1⟩
  | false => exact ⟨fun _ => List.prefix_append _ _, fun _ => rfl⟩

end Numeral

/-- What a token is that is read where a text begins with a numeral. -/
inductive Token.LongestNumeral (t : Token) (s : Text) : Prop
  /-- The longest numeral, with no range operator and other numeral behind it. -/
  | value {first rest : Text} {v : Literal} (split : s = first ++ rest) (longest : Text.Longest NumeralForm first s)
      (denotes : Denotes first v) (apart : ¬ ∃ inclusive behind, Joins rest inclusive behind ∧ BeginsNumeral behind)
      (body : t.body = .value v) (text : t.text = first) : LongestNumeral t s
  /-- The longest numeral, a range operator, and the longest numeral behind that. -/
  | range {first rest last behind : Text} {lower upper : Literal} {inclusive : Bool} (split : s = first ++ rest)
      (longest : Text.Longest NumeralForm first s) (denotes : Denotes first lower) (joins : Joins rest inclusive behind)
      (begins : BeginsNumeral behind) (longest' : Text.Longest NumeralForm last behind) (denotes' : Denotes last upper)
      (body : t.body = .range lower upper inclusive) (text : t.text = first ++ (rangeMark inclusive ++ last)) :
      LongestNumeral t s

/-- Where a numeral begins, it is read, or it and another one behind a range operator. -/
theorem Scan.number_cases {body : Token.Body} (h : number s = .token body n) :
    (∃ v k, Numeral.read s = .literal v k ∧ Numeral.rangeLength (s.drop k) = 0 ∧ body = .value v ∧ n = k - 1) ∨
      ∃ lower upper inclusive, body = .range lower upper inclusive := by
  unfold number at h
  split at h
  · cases h
  rename_i lower k read
  simp only [] at h
  split at h
  · rename_i none
    cases h
    exact .inl ⟨lower, k, read, none, rfl, rfl⟩
  split at h
  · cases h
  · cases h
    exact .inr ⟨_, _, _, rfl⟩

/-- **Numerals are as long as they can be, and integers are exact.** -/
theorem numbers_longest {c : Cursor} {t : Token} (here : c.Before s) (begins : BeginsNumeral s)
    (read : c.next.1 = .ok t) : t.LongestNumeral s := by
  have starts := Numeral.startsHere_iff.2 begins
  obtain ⟨u, r, rfl⟩ : ∃ u r, s = u :: r := by
    obtain ⟨u, r, _, rfl | rfl⟩ := begins
    · exact ⟨u, r, rfl⟩
    · exact ⟨_, u :: r, rfl⟩
  obtain ⟨n, scanned, text⟩ := here.scan read
  rcases Scan.number_cases ((scan_eq_number starts).symm.trans scanned) with
    ⟨v, k, number, none, body, rfl⟩ | ⟨lower, upper, inclusive, body⟩
  · obtain ⟨pos, _⟩ := Numeral.read_length starts number
    obtain ⟨k, rfl⟩ : ∃ j, k = j + 1 := ⟨k - 1, by omega⟩
    refine .value (List.take_append_drop (k + 1) (u :: r)).symm (Numeral.longest_of_read starts number)
      (Numeral.denotes_of_read starts number) ?_ body text
    rintro ⟨inclusive, behind, joins, begins⟩
    exact Numeral.rangeLength_of_joins joins begins none
  · rw [body] at scanned
    obtain ⟨first, last, rest, bounds, length⟩ := exists_bounds scanned
    have longest := Numeral.longest_of_read starts bounds.lower
    have denotes := Numeral.denotes_of_read starts bounds.lower
    have longest' := Numeral.longest_of_read bounds.starts' bounds.upper
    have denotes' := Numeral.denotes_of_read bounds.starts' bounds.upper
    have front : (u :: r).take first.length = first := by rw [bounds.split, List.take_left]
    rw [List.take_left] at longest' denotes'
    rw [front] at longest denotes
    refine .range bounds.split longest denotes (Numeral.joins_of_rangeLength bounds.operator)
      (Numeral.startsHere_iff.1 bounds.starts') longest' denotes' body ?_
    rw [text, ← List.take_succ_cons, length]
    exact bounds.take_eq

/-- A range from a number with a sign in base 16, behind blanks and before a name. -/
theorem numbers_longest_sample : ∃ t, (Cursor.start " -0x1F...07x").Before "-0x1F...07x" ∧
    BeginsNumeral "-0x1F...07x" ∧ (Cursor.start " -0x1F...07x").next.1 = .ok t ∧
      t.body = .range (.int (-31)) (.uint 7) false ∧ t.LongestNumeral "-0x1F...07x" := by
  have here : (Cursor.start " -0x1F...07x").Before "-0x1F...07x" := Cursor.before_iff.2 (by decide)
  have begins : BeginsNumeral "-0x1F...07x" := ⟨_, _, rfl, .inr rfl⟩
  have read : (Cursor.start " -0x1F...07x").next.1 =
      .ok ⟨.range (.int (-31)) (.uint 7) false, "-0x1F...07", ⟨1, 2, 1⟩⟩ := by decide +kernel
  exact ⟨_, here, begins, read, rfl, numbers_longest here begins read⟩

end Cddl
