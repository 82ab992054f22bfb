import Cddl.Proofs.Layout.Literal
import Cddl.Proofs.Token.Extent
import Cddl.Proofs.Token.Feed
/-!
# What a token that was read is known to be

A token that was read from a text can be written and read again, unless one of its literals is a number with a fraction
or exponent, or a zero with a sign (`plain_of_read`).
-/
namespace Cddl

open CodeUnit (ofChar)

variable {u : CodeUnit} {s r : Text} {t : Token} {n : Nat} {v : Literal}

/-! ## Literals -/

/-- What is known of a literal that was read from a text. -/
def Literal.Readable : Literal → Prop
  | .int n => n ≤ 0
  | .uint n => 0 ≤ n
  | .float _ => True
  | .text _ => True
  | .bytes encoding content => Quoted.acceptable encoding content = true ∧ content.getLast? ≠ some (ofChar '\\')

/-- The literals that may be written as something else: a zero with a sign, and any floating-point number. -/
def Literal.Excepted (v : Literal) : Prop := v = .int 0 ∨ ∃ x, v = .float x

theorem Literal.Readable.writable (h : v.Readable) (hv : ¬ v.Excepted) : v.Writable := by
  cases v with
  | int n =>
    have le : n ≤ 0 := h
    have ne : n ≠ 0 := by
      rintro rfl
      exact hv (.inl rfl)
    show n < 0
    omega
  | float x => exact hv (.inr ⟨x, rfl⟩)
  | uint | text | bytes => exact h

namespace Numeral

theorem integer_readable (negative : Bool) (n : Nat) : (integer negative n).Readable := by
  unfold integer
  cases negative with
  | true => exact Int.neg_nonpos_of_nonneg (Int.natCast_nonneg n)
  | false => exact Int.natCast_nonneg n

theorem read_readable (h : read s = .literal v n) : v.Readable := by
  rw [read_eq] at h
  split at h
  · split at h <;> cases h
    exact integer_readable _ _
  · unfold readDecimal at h
    simp only [] at h
    split at h <;> cases h
    · exact integer_readable _ _
    · trivial

end Numeral

namespace Quoted

/-- Outside of base 16 every unit before the closing quote is a part of the content. -/
theorem readBytes_ne_nil {e : ByteEncoding} {q : CodeUnit} (he : e ≠ .base16) (hq : q ≠ ofChar '\'') {content : Text}
    (h : readBytes e (q :: r) = .closed content n) : content ≠ [] := by
  have kept : byteContent e q = [q] := by simp [byteContent, he]
  by_cases backslash : q = ofChar '\\'
  · rw [readBytes.eq_def] at h
    simp only [if_neg hq, if_pos backslash] at h
    split at h
    · cases h
    · split at h
      · obtain ⟨c, _, _, rfl, _⟩ := prepend_eq_closed h
        exact List.cons_ne_nil _ _
      · obtain ⟨c, _, _, rfl, _⟩ := prepend_eq_closed h
        rw [kept]
        exact List.cons_ne_nil _ _
  · rw [readBytes_plain hq backslash] at h
    obtain ⟨c, _, _, rfl, _⟩ := prepend_eq_closed h
    rw [kept]
    exact List.cons_ne_nil _ _

theorem getLast?_cons {a u : CodeUnit} {c : Text} (ha : a ≠ u) (hc : c.getLast? ≠ some u) :
    (a :: c).getLast? ≠ some u := by
  cases c with
  | nil =>
    intro h
    exact ha (Option.some.inj h)
  | cons b c => rwa [List.getLast?_cons_cons]

/-- A backslash right before the closing quote would escape it. -/
theorem getLast?_readBytes {e : ByteEncoding} (he : e ≠ .base16) : ∀ (s : Text) {content : Text} {n : Nat},
    readBytes e s = .closed content n → content.getLast? ≠ some (ofChar '\\')
  | [], _, _, h => by cases h
  | u :: r, content, n, h => by
    have kept : byteContent e u = [u] := by simp [byteContent, he]
    by_cases quote : u = ofChar '\''
    · rw [quote, readBytes_quote] at h
      cases h
      exact fun h => by cases h
    by_cases backslash : u = ofChar '\\'
    · rw [readBytes.eq_def] at h
      simp only [if_neg quote, if_pos backslash] at h
      match r, h with
      | [], h => cases h
      | q :: r, h =>
        simp only [] at h
        split at h
        · obtain ⟨c, m, rest, rfl, _⟩ := prepend_eq_closed h
          exact getLast?_cons (by decide) (getLast?_readBytes he r rest)
        · rename_i hq
          obtain ⟨c, m, rest, rfl, _⟩ := prepend_eq_closed h
          have more := getLast?_readBytes he (q :: r) rest
          obtain ⟨a, c, rfl⟩ := List.exists_cons_of_ne_nil (readBytes_ne_nil he hq rest)
          rwa [kept, List.cons_append, List.nil_append, List.getLast?_cons_cons]
    · rw [readBytes_plain quote backslash, kept] at h
      obtain ⟨c, m, rest, rfl, _⟩ := prepend_eq_closed h
      exact getLast?_cons backslash (getLast?_readBytes he r rest)

theorem readBytes_readable {e : ByteEncoding} {content : Text} (h : readBytes e s = .closed content n)
    (accepted : acceptable e content = true) : (Literal.bytes e content).Readable := by
  refine ⟨accepted, ?_⟩
  by_cases he : e = .base16
  · subst he
    intro last
    have digit : CodeUnit.isHexDigit (ofChar '\\') = true :=
      List.all_eq_true.1 accepted _ (List.mem_of_getLast? last)
    exact absurd digit (by decide)
  · exact getLast?_readBytes he s h

end Quoted

theorem Scan.number_value (h : number s = .token (.value v) n) : v.Readable := by
  unfold number at h
  split at h
  · cases h
  · rename_i lower k read
    simp only [] at h
    split at h
    · cases h
      exact Numeral.read_readable read
    · split at h <;> cases h

theorem Scan.number_range {lower upper : Literal} {inclusive : Bool}
    (h : number s = .token (.range lower upper inclusive) n) :
    lower.Readable ∧ upper.Readable := by
  unfold number at h
  split at h
  · cases h
  · rename_i lower' k read
    simp only [] at h
    split at h
    · cases h
    · split at h
      · cases h
      · rename_i upper' m read'
        cases h
        exact ⟨Numeral.read_readable read, Numeral.read_readable read'⟩

theorem Scan.bytes_value {e : ByteEncoding} {k : Nat} (h : bytes e k r = .token (.value v) n) : v.Readable := by
  unfold bytes at h
  split at h
  · rename_i content m read
    split at h
    · rename_i accepted
      cases h
      exact Quoted.readBytes_readable read accepted
    · cases h
  · cases h

theorem scan_value (h : scan u r = .token (.value v) n) : v.Readable := by
  unfold scan at h
  split at h
  · unfold Scan.text at h
    split at h <;> cases h
    trivial
  split at h
  · exact Scan.bytes_value h
  split at h
  · exact Scan.bytes_value h
  split at h
  · exact Scan.bytes_value h
  split at h
  · exact Scan.number_value h
  split at h
  · cases h
  · unfold Scan.mark at h
    split at h
    · cases h
    split at h
    · unfold Scan.hash at h
      simp only [] at h
      split at h <;> cases h
    split at h
    · split at h <;> cases h
    · cases h

/-! ## Names -/

/-- What is taken for a name from the front of a text is a name by itself. -/
theorem Scan.nameLength_take : ∀ r : Text, nameLength (r.take (nameLength r)) = nameLength r
  | [] => rfl
  | u :: r => by
    have same := nameLength_take r
    rw [nameLength]
    by_cases inName : u.inName = true
    · rw [if_pos inName, List.take_succ_cons, nameLength, if_pos inName, same]
    rw [if_neg inName]
    by_cases joins : u.joinsName = true
    · rw [if_pos joins]
      cases hn : nameLength r with
      | zero => rfl
      | succ k =>
        rw [hn] at same
        simp only [List.take_succ_cons]
        rw [nameLength, if_neg inName, if_pos joins, same]
    · rw [if_neg joins]
      rfl

/-- Every unit of a name may stand in one. -/
theorem IsName.mem {t : Text} (h : IsName t) (hu : u ∈ t) : u.inName = true ∨ u.joinsName = true := by
  obtain ⟨v, r, rfl, starts, whole⟩ := h
  rcases List.mem_cons.1 hu with rfl | hu
  · exact .inl (by rw [CodeUnit.inName, starts]; rfl)
  · exact mem_of_nameLength whole hu

theorem isName_take (starts : u.startsName = true) (r : Text) : IsName (u :: r.take (Scan.nameLength r)) := by
  have le := Scan.nameLength_le r
  refine ⟨u, _, rfl, starts, ?_⟩
  rw [Scan.nameLength_take, List.length_take]
  omega

/-! ## Tokens -/

/-- The literals of a token. -/
def Token.literals (t : Token) : List Literal :=
  match t.body with
  | .value v => [v]
  | .range lower upper _ => [lower, upper]
  | _ => []

/-- A token that can be written and read again. -/
def Token.Plain (t : Token) : Prop :=
  match t.body with
  | .value v => v.Writable
  | .range lower upper _ => lower.Writable ∧ upper.Writable
  | .mark .name => IsName t.text
  | .mark .control => ∃ name, t.text = ofChar '.' :: name ∧ IsName name
  | .mark .rangeOperator => t.text = ".." ∨ t.text = "..."
  | _ => True

theorem Scan.symbol_of_listed {m : Mark} {p : Text → Bool} (h : symbol? s = some (r, m))
    (listed : symbols.all (fun q => decide (q.2 ≠ m) || p q.1) = true) : p r = true := by
  have found := List.all_eq_true.1 listed _ (List.mem_of_find?_eq_some h)
  simpa using found

/-- No symbol stands for a name or a control operator. -/
theorem Scan.symbol?_ne {m : Mark} (hm : m = .name ∨ m = .control) : symbol? s ≠ some (r, m) := by
  intro found
  have listed : symbols.all (fun q => decide (q.2 ≠ m) || false) = true := by rcases hm with rfl | rfl <;> decide
  exact Bool.false_ne_true (symbol_of_listed (p := fun _ => false) found listed)

/-- A name is scanned up to the end of what a name goes on with. -/
theorem taken_of_scan_name (h : scan u r = .token (.mark .name) n) : u.startsName = true ∧ n = Scan.nameLength r := by
  rcases scan_mark h with ⟨_, starts, length⟩ | ⟨t, found, _⟩ | ⟨h, _⟩ | ⟨h, _⟩
  · exact ⟨starts, length⟩
  · exact absurd found (Scan.symbol?_ne (.inl rfl))
  · cases h
  · cases h

/-- A control operator is scanned as a dot and the name behind it. -/
theorem taken_of_scan_control (h : scan u r = .token (.mark .control) n) : u = ofChar '.' ∧
    ∃ v r', r = v :: r' ∧ v.startsName = true ∧ r.take n = v :: r'.take (Scan.nameLength r') := by
  rcases scan_mark h with ⟨h, _⟩ | ⟨t, found, _⟩ | ⟨h, _⟩ | ⟨_, dot, starts, length⟩
  · cases h
  · exact absurd found (Scan.symbol?_ne (.inr rfl))
  · cases h
  · cases r with
    | nil => cases starts
    | cons v r =>
      have starts : v.startsName = true := starts
      have inName : v.inName = true := by rw [CodeUnit.inName, starts, Bool.true_or]
      refine ⟨dot, v, r, rfl, starts, ?_⟩
      rw [length, Scan.nameLength, if_pos inName, List.take_succ_cons]

/-- A name that was scanned is a name as a whole. -/
theorem name_of_scan (h : scan u r = .token (.mark .name) n) : IsName (u :: r.take n) := by
  obtain ⟨starts, rfl⟩ := taken_of_scan_name h
  exact isName_take starts r

theorem control_of_scan (h : scan u r = .token (.mark .control) n) :
    ∃ name, u :: r.take n = ofChar '.' :: name ∧ IsName name := by
  obtain ⟨dot, v, r', _, starts, taken⟩ := taken_of_scan_control h
  rw [dot, taken]
  exact ⟨_, rfl, isName_take starts r'⟩

/-- Any other mark is written as one of the symbols. -/
theorem symbol_of_scan {m : Mark} (h : scan u r = .token (.mark m) n) (hm : m ≠ .name ∧ m ≠ .hash ∧ m ≠ .control) :
    Scan.symbol? (u :: r) = some (u :: r.take n, m) := by
  rcases scan_mark h with ⟨name, _⟩ | ⟨t, found, rfl⟩ | ⟨hash, _⟩ | ⟨control, _⟩
  · exact absurd name hm.1
  · obtain ⟨tail, split⟩ := Scan.spelling_of_symbol? found
    have present : t ≠ [] := (by decide : ∀ q ∈ Scan.symbols, q.1 ≠ []) _ (List.mem_of_find?_eq_some found)
    obtain ⟨v, t, rfl⟩ := List.exists_cons_of_ne_nil present
    obtain ⟨rfl, rfl⟩ := List.cons.inj split
    rw [found, List.length_cons, Nat.add_sub_cancel, List.append_eq, List.take_left]
  · exact absurd hash hm.2.1
  · exact absurd control hm.2.2

theorem rangeOperator_of_scan (h : scan u r = .token (.mark .rangeOperator) n) :
    u :: r.take n = ".." ∨ u :: r.take n = "..." := by
  have dots := Scan.symbol_of_listed (p := fun t => decide (t = "..") || decide (t = "..."))
    (symbol_of_scan h (by decide)) (by decide)
  rwa [Bool.or_eq_true, decide_eq_true_iff, decide_eq_true_iff] at dots

/-- A name does not end in a slash, and neither does the bracket that closes its parameters. -/
theorem slashless_of_read (h : t.Read) (is : t.is .name = true ∨ t.is .rightAngle = true) :
    ∃ v, t.text.getLast? = some v ∧ v ≠ ofChar '/' := by
  have more : t.is .endOfInput = false := is.elim (Token.not_is · (by decide)) (Token.not_is · (by decide))
  obtain ⟨u, r, n, scanned, text⟩ := h.exists_scan more
  rw [text]
  refine ⟨_, List.getLast?_eq_some_getLast (List.cons_ne_nil _ _), fun slash => ?_⟩
  have last := List.getLast?_eq_some_getLast (List.cons_ne_nil u (r.take n))
  rw [slash] at last
  rcases is with is | is
  · rw [Token.is_iff.1 is] at scanned
    exact absurd ((name_of_scan scanned).mem (List.mem_of_getLast? last)) (by decide)
  · rw [Token.is_iff.1 is] at scanned
    have angle := Scan.symbol_of_listed (p := fun t => decide (t.getLast? ≠ some (ofChar '/')))
      (symbol_of_scan scanned (by decide)) (by decide)
    exact of_decide_eq_true angle last

/-- What is known of the literals of a token that was read. -/
theorem readable_of_read (h : t.Read) : ∀ v ∈ t.literals, v.Readable := by
  intro v hv
  cases h with
  | ended l => cases hv
  | @scanned u r body n l scanned =>
    cases body with
    | value w =>
      cases List.mem_singleton.1 hv
      exact scan_value scanned
    | range lower upper inclusive =>
      obtain ⟨_, read⟩ := scan_range scanned
      obtain ⟨readable, readable'⟩ := Scan.number_range read
      have either : v = lower ∨ v = upper := by simpa [Token.literals] using hv
      rcases either with rfl | rfl
      · exact readable
      · exact readable'
    | tag | mark => cases hv

/-- **A token that was read can be written and read again, if its literals can.** -/
theorem plain_of_read (h : t.Read) (hv : ∀ v ∈ t.literals, ¬ v.Excepted) : t.Plain := by
  have writable : ∀ v ∈ t.literals, v.Writable := fun v mem => (readable_of_read h v mem).writable (hv v mem)
  cases h with
  | ended l => trivial
  | @scanned u r body n l scanned =>
    cases body with
    | value v => exact writable v List.mem_cons_self
    | range lower upper inclusive =>
      exact ⟨writable lower List.mem_cons_self, writable upper (List.mem_cons_of_mem _ List.mem_cons_self)⟩
    | tag => trivial
    | mark m =>
      cases m with
      | name => exact name_of_scan scanned
      | control => exact control_of_scan scanned
      | rangeOperator => exact rangeOperator_of_scan scanned
      | _ => trivial

end Cddl
