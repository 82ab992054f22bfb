import Cddl.Proofs.Token.Plain
import Cddl.Proofs.Token.Tiling
/-!
# Names are as long as they can be

Wherever a cursor stands, one text is behind the blanks there (`Cursor.before_iff`).  A name that is read is the longest
that this text begins with, which may take looking ahead over any run of dashes and dots; so is the name behind the dot
of a control operator (`names_longest`).
-/
namespace Cddl

open CodeUnit (ofChar)

variable {c : Cursor} {s t r p q : Text} {u : CodeUnit} {body : Token.Body} {n : Nat}

/-! ## Where a token begins -/

/-- Of the texts of a kind that a text begins with, the longest. -/
structure Text.Longest (kind : Text → Prop) (t s : Text) : Prop where
  front : t <+: s
  member : kind t
  longest : ∀ p, p <+: s → kind p → p.length ≤ t.length

namespace Cursor

/-- A cursor has a text before it, behind nothing but blanks, and the text does not begin with more of them. -/
def Before (c : Cursor) (s : Text) : Prop :=
  ∃ gap, c.rest = gap ++ s ∧ Trivia gap s ∧ ∀ u, s.head? = some u → isSpace u = false ∧ u ≠ ofChar ';'

/-- **There is one text that a cursor has before it**, which is what skipping the blanks leaves. -/
theorem before_iff : c.Before s ↔ s = c.skipTrivia.rest := by
  rw [rest_skipTrivia]
  have blanks := trivia_take c.rest
  constructor
  · rintro ⟨gap, split, trivia, clear⟩
    have none : triviaLength false s = 0 := by
      cases s with
      | nil => rfl
      | cons u r => exact triviaLength_token (clear u rfl).1 (clear u rfl).2
    rw [split, trivia.triviaLength, none, Nat.add_zero, List.drop_left]
  · rintro rfl
    refine ⟨_, (List.take_append_drop _ _).symm, blanks, fun u first => ?_⟩
    have all := blanks.triviaLength
    rw [List.take_append_drop, List.length_take, Nat.min_eq_left (triviaLength_le _ _)] at all
    obtain ⟨r, split⟩ := List.head?_eq_some_iff.1 first
    apply clear_of_triviaLength (r := r)
    rw [split] at all
    omega

namespace Before

theorem of_scan (h : c.Before (u :: r)) (scanned : Cddl.scan u r = .token body n) :
    c.next.1 = .ok ⟨body, u :: r.take n, c.skipTrivia.place⟩ := by
  have rest := before_iff.1 h
  unfold next readHere
  rw [← rest]
  simp only [scanned]

theorem scan {t : Token} (h : c.Before (u :: r)) (read : c.next.1 = .ok t) :
    ∃ n, Cddl.scan u r = .token t.body n ∧ t.text = u :: r.take n := by
  have rest := before_iff.1 h
  unfold next readHere at read
  rw [← rest] at read
  simp only [] at read
  split at read
  · rename_i body n scanned
    cases read
    exact ⟨n, scanned, rfl⟩
  · cases read

theorem exists_scan {t : Token} (h : c.Before s) (read : c.next.1 = .ok t) (more : t.is .endOfInput = false) :
    ∃ u r n, s = u :: r ∧ Cddl.scan u r = .token t.body n ∧ t.text = u :: r.take n := by
  cases s with
  | nil =>
    have rest := before_iff.1 h
    unfold next readHere at read
    rw [← rest] at read
    cases read
    cases more
  | cons u r =>
    obtain ⟨n, scanned, text⟩ := h.scan read
    exact ⟨u, r, n, rfl, scanned, text⟩

end Before
end Cursor

/-! ## The form of a name -/

/-- The units that a name may begin with. -/
def CodeUnit.IsAlpha (u : CodeUnit) : Prop := u.isLetter = true ∨ u = ofChar '@' ∨ u = ofChar '_' ∨ u = ofChar '$'

/-- What a name may go on with: letters and digits, each perhaps behind a run of dashes and dots. -/
inductive NameTail : Text → Prop
  | nil : NameTail []
  | unit (run : Text) {tail : Text} {u : CodeUnit} (joints : ∀ j ∈ run, j = ofChar '-' ∨ j = ofChar '.')
      (is : u.IsAlpha ∨ u.isDigit = true) (more : NameTail tail) : NameTail (run ++ u :: tail)

/-- The form of a name. -/
def NameForm (t : Text) : Prop := ∃ u r, t = u :: r ∧ u.IsAlpha ∧ NameTail r

theorem CodeUnit.startsName_iff : u.startsName = true ↔ u.IsAlpha := by
  simp [startsName, IsAlpha, or_assoc]

theorem CodeUnit.inName_iff : u.inName = true ↔ u.IsAlpha ∨ u.isDigit = true := by
  rw [inName, Bool.or_eq_true, startsName_iff]

theorem CodeUnit.joinsName_iff : u.joinsName = true ↔ u = ofChar '-' ∨ u = ofChar '.' := by
  simp [joinsName]

/-- A joint is no unit of a name by itself. -/
theorem CodeUnit.not_inName_of_joinsName (h : u.joinsName = true) : u.inName = false := by
  rcases joinsName_iff.1 h with rfl | rfl <;> decide

theorem NameTail.nameLength (h : NameTail r) : Scan.nameLength r = r.length := by
  induction h with
  | nil => rfl
  | @unit run tail u joints is _ ih =>
    induction run with
    | nil => rw [List.nil_append, Scan.nameLength, if_pos (CodeUnit.inName_iff.2 is), ih, List.length_cons]
    | cons j run rest =>
      obtain ⟨joint, joints⟩ := List.forall_mem_cons.1 joints
      have joins := CodeUnit.joinsName_iff.2 joint
      have some : (run ++ u :: tail).length = (run ++ tail).length + 1 := by
        simp only [List.length_append, List.length_cons]
        omega
      rw [List.cons_append, Scan.nameLength, if_neg (Bool.eq_false_iff.1 (CodeUnit.not_inName_of_joinsName joins)),
        if_pos joins, rest joints, some, List.length_cons, some]

theorem nameTail_of_nameLength : ∀ {r : Text}, Scan.nameLength r = r.length → NameTail r
  | [], _ => .nil
  | u :: r, h => by
    rw [Scan.nameLength, List.length_cons] at h
    split at h
    · rename_i inName
      exact .unit [] (fun _ mem => absurd mem List.not_mem_nil) (CodeUnit.inName_iff.1 inName)
        (nameTail_of_nameLength (Nat.succ.inj h))
    split at h
    · rename_i joins
      split at h
      · cases h
      · -- the run of joints that stands before the next unit is longer by one
        rename_i k length
        have tail : NameTail r := nameTail_of_nameLength (length.trans (Nat.succ.inj h))
        cases tail with
        | nil => cases length
        | @unit run tail v joints is more =>
          exact .unit (u :: run) (List.forall_mem_cons.2 ⟨CodeUnit.joinsName_iff.1 joins, joints⟩) is more
    · cases h

theorem nameForm_iff : NameForm t ↔ IsName t := by
  constructor
  · rintro ⟨u, r, split, starts, tail⟩
    exact ⟨u, r, split, CodeUnit.startsName_iff.2 starts, tail.nameLength⟩
  · rintro ⟨u, r, split, starts, whole⟩
    exact ⟨u, r, split, CodeUnit.startsName_iff.1 starts, nameTail_of_nameLength whole⟩

/-! ## Longest names -/

/-- More text does not make a name shorter. -/
theorem Scan.nameLength_le_append (p q : Text) : nameLength p ≤ nameLength (p ++ q) := by
  induction p with
  | nil => exact Nat.zero_le _
  | cons u p ih =>
    rw [List.cons_append, nameLength, nameLength]
    split
    · omega
    split
    · cases front : nameLength p with
      | zero => exact Nat.zero_le _
      | succ k =>
        obtain ⟨m, whole⟩ : ∃ m, nameLength (p ++ q) = m + 1 := ⟨nameLength (p ++ q) - 1, by omega⟩
        rw [whole]
        simp only []
        omega
    · exact Nat.zero_le _

/-- **What is scanned as a name is the longest one.** -/
theorem longest_name (starts : u.startsName = true) (r : Text) :
    Text.Longest NameForm (u :: r.take (Scan.nameLength r)) (u :: r) where
  front := List.cons_prefix_cons.2 ⟨rfl, List.take_prefix _ _⟩
  member := nameForm_iff.2 (isName_take starts r)
  longest := by
    rintro p ⟨q, split⟩ ⟨v, tail, rfl, _, form⟩
    obtain ⟨rfl, rfl⟩ := List.cons.inj split
    have le := Scan.nameLength_le_append tail q
    rw [form.nameLength] at le
    rw [List.length_cons, List.length_cons, List.append_eq, List.length_take,
      Nat.min_eq_left (Scan.nameLength_le _)]
    exact Nat.succ_le_succ le

theorem longest_of_scan_name (h : scan u r = .token (.mark .name) n) :
    Text.Longest NameForm (u :: r.take n) (u :: r) := by
  obtain ⟨starts, rfl⟩ := taken_of_scan_name h
  exact longest_name starts r

theorem longest_of_scan_control (h : scan u r = .token (.mark .control) n) :
    u = ofChar '.' ∧ Text.Longest NameForm (r.take n) r := by
  obtain ⟨dot, v, r', rfl, starts, taken⟩ := taken_of_scan_control h
  rw [taken]
  exact ⟨dot, longest_name starts r'⟩

/-- **Names are as long as they can be**: one that is read is the longest that the text there begins with, and so is the
name of a control operator behind its dot.  What begins as a name does is read as one, unless it begins a byte
string. -/
theorem names_longest (c : Cursor) : ∃ s, (∀ r, c.Before r ↔ r = s) ∧
    (∀ t, c.next.1 = .ok t → t.is .name = true → Text.Longest NameForm t.text s) ∧
      (∀ t, c.next.1 = .ok t → t.is .control = true →
        ∃ name r, t.text = ofChar '.' :: name ∧ s = ofChar '.' :: r ∧ Text.Longest NameForm name r) ∧
        ((∃ u, s.head? = some u ∧ u.IsAlpha) → ¬ Text.ofString "h'" <+: s → ¬ Text.ofString "b64'" <+: s →
          ∃ t, c.next.1 = .ok t ∧ t.is .name = true) := by
  have here : c.Before c.skipTrivia.rest := Cursor.before_iff.2 rfl
  refine ⟨c.skipTrivia.rest, fun _ => Cursor.before_iff, fun t read is => ?_, fun t read is => ?_,
    fun starts hex base => ?_⟩
  · obtain ⟨u, r, n, split, scanned, text⟩ := here.exists_scan read (Token.not_is is (by decide))
    rw [Token.is_iff.1 is] at scanned
    rw [split, text]
    exact longest_of_scan_name scanned
  · obtain ⟨u, r, n, split, scanned, text⟩ := here.exists_scan read (Token.not_is is (by decide))
    rw [Token.is_iff.1 is] at scanned
    obtain ⟨rfl, longest⟩ := longest_of_scan_control scanned
    exact ⟨r.take n, r, text, split, longest⟩
  · obtain ⟨u, first, alpha⟩ := starts
    obtain ⟨r, split⟩ := List.head?_eq_some_iff.1 first
    rw [split] at here hex base
    have base16 : ¬ (u = ofChar 'h' ∧ r.head? = some (ofChar '\'')) := by
      rintro ⟨rfl, quote⟩
      obtain ⟨r, rfl⟩ := List.head?_eq_some_iff.1 quote
      exact hex ⟨r, rfl⟩
    have base64 : ¬ (u = ofChar 'b' ∧ Text.ofString "64'" <+: r) := by
      rintro ⟨rfl, r, rfl⟩
      exact base ⟨r, rfl⟩
    have scanned := scan_name (CodeUnit.startsName_iff.2 alpha) base16 base64
    exact ⟨_, here.of_scan scanned, rfl⟩

/-- A name with runs of joints in it, behind a comment and before a range operator. -/
theorem names_longest_sample : ∃ t, (Cursor.start ";\n ab--.1.. 2").next.1 = .ok t ∧ t.is .name = true ∧
    t.text = "ab--.1" ∧ Text.Longest NameForm t.text "ab--.1.. 2" := by
  obtain ⟨s, here, name, _⟩ := names_longest (.start ";\n ab--.1.. 2")
  have behind : Text.ofString "ab--.1.. 2" = s := (here _).1 (Cursor.before_iff.2 (by decide))
  have read : (Cursor.start ";\n ab--.1.. 2").next.1 = .ok ⟨.mark .name, "ab--.1", ⟨2, 2, 3⟩⟩ := rfl
  exact ⟨_, read, rfl, rfl, behind ▸ name _ read rfl⟩

end Cddl
