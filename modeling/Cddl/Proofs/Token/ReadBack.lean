import Cddl.Proofs.Token.Plain
import Cddl.Proofs.Token.Run
/-!
# Literals that survive being written

Text is always read back from what it is written as, and a byte string exactly if a text can hold it
(`quoted_readsBack`).  A number that has been read from a text is read back unless it is a zero with a sign, which loses
the sign (`integer_readsBack`).
-/
namespace Cddl

open CodeUnit (ofChar)

variable {c : Cursor} {s : Text} {t : Token} {v w : Literal} {n : Nat} {k : Int} {e : ByteEncoding} {content : Text}

/-! ## Texts of one literal -/

/-- Whether a text is one token, for a literal. -/
def Text.ReadsAs (s : Text) (v : Literal) : Prop :=
  ∃ t e, tokenize s = .ok [t, e] ∧ t.body = .value v ∧ e.is .endOfInput = true

/-- Whether a literal is what the text that it is written as is read as. -/
def Literal.ReadsBack (v : Literal) : Prop := v.render.ReadsAs v

namespace Text.ReadsAs

theorem unique (h : s.ReadsAs v) (h' : s.ReadsAs w) : v = w := by
  obtain ⟨t, e, read, body, _⟩ := h
  obtain ⟨t', e', read', body', _⟩ := h'
  cases read.symm.trans read'
  cases body.symm.trans body'
  rfl

/-- What is scanned up to the end of the text is the only token there. -/
theorem of_scanned (h : Scanned (.value v) s []) : s.ReadsAs v := by
  have read : (Cursor.start s).next = (.ok ⟨.value v, s, .start⟩, ⟨Location.start.past s, []⟩) := by
    have first := Cursor.next_of_scanned (l := .start) (s := []) rfl h
    rwa [List.nil_append, List.append_nil] at first
  have first : (Cursor.start s).next.1 = .ok ⟨.value v, s, .start⟩ := congrArg Prod.fst read
  have rest : (Cursor.start s).next.2 = ⟨Location.start.past s, []⟩ := congrArg Prod.snd read
  have ended : (Cursor.start s).next.2.Run [.endAt (Location.start.past s)] none := by
    rw [rest]
    exact .ended rfl rfl
  exact ⟨_, _, (Cursor.Run.token first h.not_end ended).tokenize_ok, rfl, rfl⟩

theorem readable (h : s.ReadsAs v) : v.Readable := by
  obtain ⟨t, e, read, body, _⟩ := h
  refine readable_of_read ((Cursor.Run.of_tokenize read).read t List.mem_cons_self) v ?_
  rw [Token.literals, body]
  exact List.mem_cons_self

end Text.ReadsAs

theorem Literal.Writable.readsBack (h : v.Writable) : v.ReadsBack := .of_scanned (scanned_literal h delimits_nil)

/-- Each token that a cursor yields has been read, also behind faults. -/
theorem Cursor.read_of_pulls : ∀ {n : Nat} {c : Cursor}, .ok t ∈ c.pulls n → t.Read
  | 0, _, h => by cases h
  | n + 1, c, h => by
    rcases List.mem_cons.1 h with first | later
    · exact (next_ok first.symm).1
    · exact read_of_pulls later

theorem Cursor.mem_pulls_of_first (h : c.next.1.toOption = some t) : .ok t ∈ c.pulls (n + 1) :=
  List.mem_cons.2 (.inl (toOption_eq_some_iff.1 h).symm)

/-! ## Quoted literals -/

/-- Whether a byte string of an encoding can have the content: digits only in base 16, and elsewhere anything that does
not end with a backslash. -/
def ByteEncoding.Holds : ByteEncoding → Text → Prop
  | .base16, content => ∀ u ∈ content, u.isHexDigit = true
  | .utf8, content | .base64, content => content.getLast? ≠ some (ofChar '\\')

theorem ByteEncoding.holds_iff : e.Holds content ↔
    Quoted.acceptable e content = true ∧ content.getLast? ≠ some (ofChar '\\') := by
  cases e with
  | utf8 | base64 => exact ⟨fun h => ⟨rfl, h⟩, And.right⟩
  | base16 =>
    constructor
    · intro digits
      refine ⟨List.all_eq_true.2 digits, fun last => ?_⟩
      exact absurd (digits _ (List.mem_of_getLast? last)) (by decide)
    · exact fun h => List.all_eq_true.1 h.1

/-- **Text is read back, and a byte string if its encoding can hold the content**, as it does in every text. -/
theorem quoted_readsBack (source : Text) :
    (∀ content, (Literal.text content).ReadsBack) ∧
      (∀ e content, (Literal.bytes e content).ReadsBack ↔ e.Holds content) ∧
        ∀ n t e content, .ok t ∈ (Cursor.start source).pulls n → .bytes e content ∈ t.literals → e.Holds content := by
  refine ⟨fun content => ?_, fun e content => ?_, fun n t e content pulled listed => ?_⟩
  · exact Literal.Writable.readsBack (v := .text content) trivial
  · rw [ByteEncoding.holds_iff]
    constructor
    · exact fun h => h.readable
    · exact fun h => Literal.Writable.readsBack (v := .bytes e content) h
  · exact ByteEncoding.holds_iff.2 (readable_of_read (Cursor.read_of_pulls pulled) _ listed)

/-- A byte string that is written with blanks. -/
theorem quoted_readsBack_sample : ∃ t, .ok t ∈ (Cursor.start "h'0a 0B'").pulls 1 ∧
    .bytes .base16 "0a0B" ∈ t.literals ∧ (Literal.bytes .base16 "0a0B").ReadsBack := by
  have pulled : .ok ⟨.value (.bytes .base16 "0a0B"), "h'0a 0B'", .start⟩ ∈ (Cursor.start "h'0a 0B'").pulls 1 :=
    Cursor.mem_pulls_of_first (by decide +kernel)
  obtain ⟨_, strings, held⟩ := quoted_readsBack "h'0a 0B'"
  exact ⟨_, pulled, List.mem_cons_self, (strings _ _).2 (held 1 _ _ _ pulled List.mem_cons_self)⟩

/-! ## Integers -/

/-- The value of a literal that is an integer. -/
def Literal.integer? : Literal → Option Int
  | .int n | .uint n => some n
  | _ => none

/-- A zero is written without its sign. -/
theorem readsAs_zero : (Literal.int 0).render.ReadsAs (.uint 0) :=
  .of_scanned (scanned_uint (Int.le_refl 0) delimits_nil)

/-- **An integer that has been read is signed if it is negative, and read back**, but for a zero with a sign, which is
read as one without. -/
theorem integer_readsBack {source : Text} (pulled : .ok t ∈ (Cursor.start source).pulls n) (listed : v ∈ t.literals)
    (whole : v.integer? = some k) :
    (v = .int k ↔ k < 0) ∧ v.ReadsBack ∨ v = .int 0 ∧ v.render.ReadsAs (.uint 0) := by
  have readable := readable_of_read (Cursor.read_of_pulls pulled) v listed
  cases v with
  | float | text | bytes => cases whole
  | uint m =>
    cases whole
    have le : 0 ≤ k := readable
    refine .inl ⟨⟨fun same => (by cases same), fun negative => ?_⟩, Literal.Writable.readsBack (v := .uint k) le⟩
    omega
  | int m =>
    cases whole
    rcases Int.lt_or_eq_of_le (show k ≤ 0 from readable) with negative | rfl
    · exact .inl ⟨⟨fun _ => negative, fun _ => rfl⟩, Literal.Writable.readsBack (v := .int k) negative⟩
    · exact .inr ⟨rfl, readsAs_zero⟩

/-- A number in base 16 at the beginning of a range. -/
theorem integer_readsBack_sample : ∃ t, .ok t ∈ (Cursor.start "-0x10..7").pulls 1 ∧ .int (-16) ∈ t.literals ∧
    (Literal.int (-16)).ReadsBack := by
  have pulled : .ok ⟨.range (.int (-16)) (.uint 7) true, "-0x10..7", .start⟩ ∈ (Cursor.start "-0x10..7").pulls 1 :=
    Cursor.mem_pulls_of_first (by decide +kernel)
  refine ⟨_, pulled, List.mem_cons_self, ?_⟩
  rcases integer_readsBack pulled List.mem_cons_self rfl with ⟨_, back⟩ | ⟨zero, _⟩
  · exact back
  · cases zero

/-- A zero keeps its sign when it is read, but not when it is written. -/
theorem signed_zero_not_readsBack : ∃ t e, tokenize "-0" = .ok [t, e] ∧ t.body = .value (.int 0) ∧
    e.is .endOfInput = true ∧ ¬ (Literal.int 0).ReadsBack := by
  have run : (Cursor.start "-0").Run [_, _] none := .token rfl rfl (.ended rfl rfl)
  exact ⟨_, _, run.tokenize_ok, rfl, rfl, fun back => by cases Text.ReadsAs.unique back readsAs_zero⟩

end Cddl
