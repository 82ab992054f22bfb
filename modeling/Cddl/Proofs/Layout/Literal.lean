import Cddl.Proofs.Layout.Lexeme
import Cddl.Schema.Render
/-!
# Literals that are read back

Floating-point numbers apart, what a literal is written as is read to the literal again (`scanned_literal`), if the
literal can be read from a text at all: a negative number is not zero, and the content of a byte string does not end
with a backslash.
-/
namespace Cddl

open CodeUnit (ofChar)

variable {u : CodeUnit} {s r rest digits : Text}

/-! ## Numbers -/

namespace Numeral

theorem radix?_digits (hd : digits.all CodeUnit.isDigit = true) (hne : digits ≠ []) (hr : Delimits rest) :
    radix? (digits ++ rest) = none := by
  have second {v : CodeUnit} (hv : (digits ++ rest)[1]? = some v) : v.isDigit = true ∨ v ∈ delimiters := by
    obtain ⟨a, ds, rfl⟩ := List.exists_cons_of_ne_nil hne
    rw [List.cons_append, List.getElem?_cons_succ] at hv
    match ds, hd, hv with
    | [], _, hv => exact .inr (hr v (by rw [List.head?_eq_getElem?]; exact hv))
    | b :: ds, hd, hv =>
      cases hv
      simp only [List.all_cons, Bool.and_eq_true] at hd
      exact .inl hd.2.1
  have apart {v : CodeUnit} (digit : v.isDigit = false) (delimiter : v ∉ delimiters) :
      ¬ [ofChar '0', v] <+: digits ++ rest := by
    rintro ⟨tail, split⟩
    have hv : (digits ++ rest)[1]? = some v := by rw [← split]; rfl
    rcases second hv with h | h
    · rw [digit] at h
      cases h
    · exact delimiter h
  unfold radix?
  rw [show Text.ofString "0x" = [ofChar '0', ofChar 'x'] by decide,
    show Text.ofString "0b" = [ofChar '0', ofChar 'b'] by decide, if_neg (apart (by decide) (by decide)),
    if_neg (apart (by decide) (by decide))]

/-- What is left of a decimal numeral behind its digits is no part of it. -/
theorem readDecimal_digits {negative : Bool} {sign : Nat} (split : s.drop sign = digits ++ rest)
    (hd : digits.all CodeUnit.isDigit = true) (hr : Delimits rest) :
    readDecimal s negative sign = .literal (integer negative (Text.toNat 10 digits)) (sign + digits.length) := by
  have run := run_append hd hr.not_digit
  have behind : s.drop (sign + digits.length) = rest := by rw [← List.drop_drop, split, List.drop_left]
  have noExponent : exponentLength rest = 0 := by
    unfold exponentLength
    rw [if_neg]
    rw [Bool.or_eq_true, decide_eq_true_iff, decide_eq_true_iff]
    exact fun h => h.elim (hr.head_ne (by decide)) (hr.head_ne (by decide))
  unfold readDecimal
  simp only [split, run, behind, hr.fractionLength, Nat.add_zero, noExponent, if_true, List.take_left]

theorem read_ofNat (n : Nat) (hr : Delimits rest) :
    read (Text.ofNat n ++ rest) = .literal (.uint n) (Text.ofNat n).length := by
  obtain ⟨u, ds, hn⟩ := List.exists_cons_of_ne_nil (Text.ofNat_ne_nil n)
  have digit : u.isDigit = true := Text.isDigit_of_mem_ofNat (hn ▸ List.mem_cons_self)
  have unsigned : (Text.ofNat n ++ rest).head? ≠ some (ofChar '-') := by
    rw [hn]
    intro h
    cases h
    exact absurd digit (by decide)
  have noSign : signLength (Text.ofNat n ++ rest) = 0 := if_neg unsigned
  rw [read_eq, noSign, List.drop_zero, radix?_digits (Text.all_ofNat n) (Text.ofNat_ne_nil n) hr,
    decide_eq_false unsigned]
  have digits : (Text.ofNat n ++ rest).drop 0 = Text.ofNat n ++ rest := rfl
  simp only [readDecimal_digits digits (Text.all_ofNat n) hr, Text.toNat_ofNat, Nat.zero_add]
  rfl

theorem read_negative (n : Nat) (hr : Delimits rest) :
    read (ofChar '-' :: (Text.ofNat n ++ rest)) = .literal (.int (-n)) ((Text.ofNat n).length + 1) := by
  have sign : signLength (ofChar '-' :: (Text.ofNat n ++ rest)) = 1 := if_pos rfl
  rw [read_eq, sign, List.drop_succ_cons, List.drop_zero, radix?_digits (Text.all_ofNat n) (Text.ofNat_ne_nil n) hr,
    decide_eq_true (show (ofChar '-' :: (Text.ofNat n ++ rest)).head? = some (ofChar '-') from rfl)]
  have digits : (ofChar '-' :: (Text.ofNat n ++ rest)).drop 1 = Text.ofNat n ++ rest := rfl
  simp only [readDecimal_digits digits (Text.all_ofNat n) hr, Text.toNat_ofNat, Nat.add_comm 1]
  rfl

theorem rangeLength_delimits (hr : Delimits rest) : rangeLength rest = 0 := by
  have apart {t : Text} : ¬ (ofChar '.' :: t) <+: rest := by
    rintro ⟨tail, rfl⟩
    exact hr.head_ne (u := ofChar '.') (by decide) rfl
  unfold rangeLength
  rw [show Text.ofString "..." = [ofChar '.', ofChar '.', ofChar '.'] by decide,
    show Text.ofString ".." = [ofChar '.', ofChar '.'] by decide, if_neg apart, if_neg apart]

end Numeral

theorem scan_eq_number (h : Numeral.startsHere (u :: r) = true) : scan u r = Scan.number (u :: r) := by
  have apart {v : CodeUnit} (digit : v.isDigit = false) (sign : v ≠ ofChar '-') : u ≠ v := by
    rintro rfl
    simp [Numeral.startsHere, Numeral.startsWithDigit, digit, sign] at h
  have noBase16 : u ≠ ofChar 'h' := apart (by decide) (by decide)
  have noBase64 : u ≠ ofChar 'b' := apart (by decide) (by decide)
  rw [scan_eq, if_neg (apart (by decide) (by decide)), if_neg (apart (by decide) (by decide)), decide_eq_false noBase16,
    decide_eq_false noBase64, h]
  rfl

/-- A numeral is read where it stands if no range goes on behind it. -/
theorem scanned_numeral {v : Literal} (hne : s ≠ []) (starts : Numeral.startsHere (s ++ rest) = true)
    (read : Numeral.read (s ++ rest) = .literal v s.length) (free : Numeral.rangeLength rest = 0) :
    Scanned (.value v) s rest := by
  obtain ⟨u, r, rfl⟩ := List.exists_cons_of_ne_nil hne
  have apart {v : CodeUnit} (digit : v.isDigit = false) (sign : v ≠ ofChar '-') : u ≠ v := by
    rintro rfl
    simp [Numeral.startsHere, Numeral.startsWithDigit, digit, sign] at starts
  refine ⟨u, r, rfl, ?_, apart (by decide) (by decide), ?_⟩
  · have blank : u ≠ ofChar ' ' := apart (by decide) (by decide)
    have tab : u ≠ ofChar '\t' := apart (by decide) (by decide)
    have carriage : u ≠ ofChar '\r' := apart (by decide) (by decide)
    have feed : u ≠ ofChar '\n' := apart (by decide) (by decide)
    simp [Cursor.isSpace, blank, tab, carriage, feed]
  · rw [List.cons_append] at starts read
    rw [scan_eq_number starts, Scan.number, read]
    have behind : (u :: (r ++ rest)).drop (r.length + 1) = rest := by rw [List.drop_succ_cons, List.drop_left]
    simp only [List.length_cons, behind, free, if_true, Nat.add_sub_cancel]

theorem scanned_number {v : Literal} (hne : s ≠ []) (starts : Numeral.startsHere (s ++ rest) = true)
    (read : Numeral.read (s ++ rest) = .literal v s.length) (hr : Delimits rest) : Scanned (.value v) s rest :=
  scanned_numeral hne starts read (Numeral.rangeLength_delimits hr)

theorem scanned_uint {n : Int} (hn : 0 ≤ n) (hr : Delimits rest) : Scanned (.value (.uint n)) (Text.ofInt n) rest := by
  obtain ⟨k, rfl⟩ := Int.eq_ofNat_of_zero_le hn
  rw [Text.ofInt_natCast]
  refine scanned_number (Text.ofNat_ne_nil k) ?_ (Numeral.read_ofNat k hr) hr
  unfold Numeral.startsHere
  rw [Text.ofNat_digits k]
  rfl

theorem scanned_int {n : Int} (hn : n < 0) (hr : Delimits rest) : Scanned (.value (.int n)) (Text.ofInt n) rest := by
  obtain ⟨k, rfl⟩ : ∃ k : Nat, n = -k := ⟨n.natAbs, by omega⟩
  have written : Text.ofInt (-(k : Int)) = ofChar '-' :: Text.ofNat k := by
    unfold Text.ofInt
    rw [if_pos hn, Int.natAbs_neg, Int.natAbs_natCast]
  rw [written]
  refine scanned_number (List.cons_ne_nil _ _) ?_ (Numeral.read_negative k hr) hr
  unfold Numeral.startsHere
  rw [Bool.or_eq_true, Bool.and_eq_true]
  exact .inr ⟨rfl, Text.ofNat_digits k⟩

/-! ## Quoted literals -/

namespace Quoted

theorem readText_quote (r : Text) : readText (ofChar '"' :: r) = .closed [] 1 := by
  rw [readText.eq_def]
  exact if_pos rfl

theorem readText_plain (quote : u ≠ ofChar '"') (backslash : u ≠ ofChar '\\') (r : Text) :
    readText (u :: r) = (readText r).prepend [u] 1 := by
  rw [readText.eq_def]
  exact (if_neg quote).trans (if_neg backslash)

theorem readBytes_quote (e : ByteEncoding) (r : Text) : readBytes e (ofChar '\'' :: r) = .closed [] 1 := by
  rw [readBytes.eq_def]
  exact if_pos rfl

theorem readBytes_plain {e : ByteEncoding} (quote : u ≠ ofChar '\'') (backslash : u ≠ ofChar '\\') (r : Text) :
    readBytes e (u :: r) = (readBytes e r).prepend (byteContent e u) 1 := by
  rw [readBytes.eq_def]
  exact (if_neg quote).trans (if_neg backslash)

/-- What is escaped in a text is what would be read otherwise. -/
theorem readText_escaped (content rest : Text) :
    readText (content.flatMap CodeUnit.textEscaped ++ ofChar '"' :: rest) =
      .closed content ((content.flatMap CodeUnit.textEscaped).length + 1) := by
  induction content with
  | nil => exact readText_quote rest
  | cons u c ih =>
    have escape {e : CodeUnit} (he : CodeUnit.textEscaped u = [ofChar '\\', e]) (hu : unescape e = u) :
        readText ((u :: c).flatMap CodeUnit.textEscaped ++ ofChar '"' :: rest) =
          .closed (u :: c) (((u :: c).flatMap CodeUnit.textEscaped).length + 1) := by
      rw [List.flatMap_cons, he, List.append_assoc, List.cons_append, List.cons_append, List.nil_append, readText,
        if_neg (by decide), if_pos rfl]
      simp only [ih, Reading.prepend, hu, List.cons_append, List.nil_append, List.length_cons]
      congr 1
      omega
    by_cases backslash : u = ofChar '\\'
    · exact escape (e := ofChar '\\') (by rw [backslash]; decide) (by rw [backslash]; decide)
    by_cases quote : u = ofChar '"'
    · exact escape (e := ofChar '"') (by rw [quote]; decide) (by rw [quote]; decide)
    by_cases feed : u = ofChar '\n'
    · exact escape (e := ofChar 'n') (by rw [feed]; decide) (by rw [feed]; decide)
    by_cases tab : u = ofChar '\t'
    · exact escape (e := ofChar 't') (by rw [tab]; decide) (by rw [tab]; decide)
    by_cases carriage : u = ofChar '\r'
    · exact escape (e := ofChar 'r') (by rw [carriage]; decide) (by rw [carriage]; decide)
    · have plain : CodeUnit.textEscaped u = [u] := by
        rw [CodeUnit.textEscaped, if_neg backslash, if_neg quote, if_neg feed, if_neg tab, if_neg carriage]
      rw [List.flatMap_cons, plain, List.append_assoc, List.cons_append, List.nil_append,
        readText_plain quote backslash, ih]
      simp only [Reading.prepend, List.cons_append, List.nil_append, List.length_cons]
      congr 1
      omega

/-- No digit is a blank. -/
theorem not_isBlank_of_isHexDigit (h : u.isHexDigit = true) : u.isBlank = false := by
  refine Bool.eq_false_iff.2 fun blank => ?_
  have zero : (ofChar '0').toNat = 48 := by decide
  have nine : (ofChar '9').toNat = 57 := by decide
  have a : (ofChar 'a').toNat = 97 := by decide
  have f : (ofChar 'f').toNat = 102 := by decide
  have A : (ofChar 'A').toNat = 65 := by decide
  have F : (ofChar 'F').toNat = 70 := by decide
  simp only [CodeUnit.isHexDigit, CodeUnit.isDigit, Bool.or_eq_true, Bool.and_eq_true, decide_eq_true_eq,
    UInt16.le_iff_toNat_le, zero, nine, a, f, A, F] at h
  simp only [CodeUnit.isBlank, blankRanges, List.any_cons, List.any_nil, Bool.or_eq_true, Bool.and_eq_true,
    decide_eq_true_eq, UInt16.le_iff_toNat_le, Bool.or_false, UInt16.reduceToNat] at blank
  omega

/-- What base 16 leaves out of a byte string is no part of an acceptable content. -/
theorem byteContent_acceptable {e : ByteEncoding} {content : Text} (h : acceptable e content = true)
    (hu : u ∈ content) : byteContent e u = [u] := by
  unfold byteContent
  rw [if_neg]
  rw [Bool.and_eq_true, decide_eq_true_iff]
  rintro ⟨rfl, blank⟩
  have digit : u.isHexDigit = true := List.all_eq_true.1 h u hu
  rw [not_isBlank_of_isHexDigit digit] at blank
  cases blank

/-- What is escaped in a byte string is what would be read otherwise, unless a backslash comes right before the end. -/
theorem readBytes_escaped {e : ByteEncoding} (rest : Text) : ∀ {content : Text}, acceptable e content = true →
    content.getLast? ≠ some (ofChar '\\') →
      readBytes e (content.flatMap CodeUnit.bytesEscaped ++ ofChar '\'' :: rest) =
        .closed content ((content.flatMap CodeUnit.bytesEscaped).length + 1)
  | [], _, _ => readBytes_quote e rest
  | u :: c, h, last => by
    have plain : byteContent e u = [u] := byteContent_acceptable h List.mem_cons_self
    have h' : acceptable e c = true := by
      unfold acceptable at h ⊢
      rw [List.all_cons] at h
      revert h
      cases decide (e ≠ .base16) <;> simp +contextual
    have last' : c.getLast? ≠ some (ofChar '\\') := by
      intro hc
      refine last ?_
      obtain ⟨v, c, rfl⟩ := List.exists_cons_of_ne_nil (show c ≠ [] by rintro rfl; cases hc)
      rw [List.getLast?_cons_cons]
      exact hc
    have ih := readBytes_escaped rest h' last'
    by_cases quote : u = ofChar '\''
    · have escaped : CodeUnit.bytesEscaped u = [ofChar '\\', ofChar '\''] := by rw [quote]; decide
      rw [List.flatMap_cons, escaped, List.append_assoc, List.cons_append, List.cons_append, List.nil_append, readBytes,
        if_neg (by decide), if_pos rfl]
      simp only [if_true, ih, Reading.prepend, quote, List.cons_append, List.nil_append, List.length_cons]
      congr 1
      omega
    have kept : CodeUnit.bytesEscaped u = [u] := if_neg quote
    rw [List.flatMap_cons, kept, List.append_assoc, List.cons_append, List.nil_append]
    by_cases backslash : u = ofChar '\\'
    · -- what comes next is not a quote: the content goes on, and a quote in it is escaped
      obtain ⟨v, c, rfl⟩ := List.exists_cons_of_ne_nil (show c ≠ [] by rintro rfl; exact last (by rw [backslash]; rfl))
      obtain ⟨q, t, next, apart⟩ : ∃ q t, (v :: c).flatMap CodeUnit.bytesEscaped ++ ofChar '\'' :: rest = q :: t ∧
          q ≠ ofChar '\'' := by
        rw [List.flatMap_cons]
        by_cases hv : v = ofChar '\''
        · exact ⟨ofChar '\\', _, by rw [hv]; rfl, by decide⟩
        · exact ⟨v, _, by rw [CodeUnit.bytesEscaped, if_neg hv]; rfl, hv⟩
      rw [next] at ih ⊢
      rw [backslash, readBytes, if_neg (by decide), if_pos rfl]
      simp only [if_neg apart, ih, ← backslash, plain, Reading.prepend, List.cons_append, List.nil_append,
        List.length_cons]
      congr 1
      omega
    · rw [readBytes_plain quote backslash, plain, ih]
      simp only [Reading.prepend, List.cons_append, List.nil_append, List.length_cons]
      congr 1
      omega

end Quoted

/-- A literal that is read to itself again when it is written.  A number with a fraction or exponent is not among
them. -/
def Literal.Writable : Literal → Prop
  | .int n => n < 0
  | .uint n => 0 ≤ n
  | .float _ => False
  | .text _ => True
  | .bytes encoding content => Quoted.acceptable encoding content = true ∧ content.getLast? ≠ some (ofChar '\\')

theorem scanned_text (content rest : Text) : Scanned (.value (.text content)) (renderText content) rest := by
  refine ⟨ofChar '"', content.flatMap CodeUnit.textEscaped ++ [ofChar '"'], rfl, by decide, by decide, ?_⟩
  rw [scan_eq, if_pos rfl, Scan.text, List.append_assoc, List.singleton_append, Quoted.readText_escaped]
  simp only [List.length_append, List.length_cons, List.length_nil, Nat.zero_add]

theorem scanned_bytes {e : ByteEncoding} {content : Text} (h : (Literal.bytes e content).Writable) (rest : Text) :
    Scanned (.value (.bytes e content)) (renderBytes e content) rest := by
  have read := Quoted.readBytes_escaped rest h.1 h.2
  have closed : (content.flatMap CodeUnit.bytesEscaped ++ [ofChar '\'']) ++ rest =
      content.flatMap CodeUnit.bytesEscaped ++ ofChar '\'' :: rest := by rw [List.append_assoc, List.singleton_append]
  cases e with
  | utf8 =>
    refine ⟨ofChar '\'', content.flatMap CodeUnit.bytesEscaped ++ [ofChar '\''], rfl, by decide, by decide, ?_⟩
    rw [scan_eq, if_neg (by decide), if_pos rfl, Scan.bytes, List.drop_zero, closed, read]
    simp only [h.1, if_true, List.length_append, List.length_singleton, Nat.zero_add]
  | base16 =>
    refine ⟨ofChar 'h', ofChar '\'' :: (content.flatMap CodeUnit.bytesEscaped ++ [ofChar '\'']), rfl, by decide,
      by decide, ?_⟩
    have opens (t : Text) :
        (decide (ofChar 'h' = ofChar 'h') && decide ((ofChar '\'' :: t).head? = some (ofChar '\''))) = true :=
      rfl
    rw [List.cons_append, scan_eq, if_neg (by decide), if_neg (by decide), if_pos (opens _), Scan.bytes,
      List.drop_succ_cons, List.drop_zero, closed, read]
    simp only [h.1, if_true, List.length_append, List.length_cons, List.length_nil, Nat.zero_add, Nat.add_comm 1]
  | base64 =>
    refine ⟨ofChar 'b',
      ofChar '6' :: ofChar '4' :: ofChar '\'' :: (content.flatMap CodeUnit.bytesEscaped ++ [ofChar '\'']),
      rfl, by decide, by decide, ?_⟩
    have mark : Text.ofString "64'" = [ofChar '6', ofChar '4', ofChar '\''] := by decide
    have opens (t : Text) : (decide (ofChar 'b' = ofChar 'b') &&
        decide (Text.ofString "64'" <+: ofChar '6' :: ofChar '4' :: ofChar '\'' :: t)) = true := by
      rw [mark, Bool.and_eq_true, decide_eq_true_iff, decide_eq_true_iff]
      exact ⟨rfl, t, rfl⟩
    rw [List.cons_append, List.cons_append, List.cons_append, scan_eq, if_neg (by decide), if_neg (by decide),
      decide_eq_false (show ofChar 'b' ≠ ofChar 'h' by decide), Bool.false_and, if_neg Bool.false_ne_true,
      if_pos (opens _), Scan.bytes]
    simp only [List.drop_succ_cons, List.drop_zero, closed, read, h.1, if_true, List.length_append,
      List.length_cons, List.length_nil]
    congr 1
    omega

/-- **A literal is read from what it is written as.** -/
theorem scanned_literal {v : Literal} (h : v.Writable) (hr : Delimits rest) : Scanned (.value v) v.render rest := by
  cases v with
  | int n => exact scanned_int h hr
  | uint n => exact scanned_uint h hr
  | float x => exact h.elim
  | text content => exact scanned_text content rest
  | bytes e content => exact scanned_bytes h rest

end Cddl
