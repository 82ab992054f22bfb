import Cddl.Proofs.Layout
import Cddl.Proofs.Text
/-!
# Tokens that are read back

The text of a symbol, name or tag is read to the token that it is the text of, if something follows that cannot belong
to it.  What is written between tokens starts with one of the `delimiters`, so it can belong to none of them.
-/
namespace Cddl

open CodeUnit (ofChar)

/-- The units that may follow a token in a text that is laid out. -/
def delimiters : Text := " \n,:<>()*"

/-- No token goes on with the text. -/
def Delimits (rest : Text) : Prop := ∀ u, rest.head? = some u → u ∈ delimiters

variable {u : CodeUnit} {r s t rest gap : Text} {m : Mark}

theorem delimits_nil : Delimits [] := fun _ h => by cases h

theorem delimits_cons (h : u ∈ delimiters) : Delimits (u :: r) := by
  rintro v hv
  cases hv
  exact h

theorem Delimits.not_any {p : CodeUnit → Bool} (h : Delimits rest) (hp : delimiters.all (fun u => !p u) = true) :
    rest.head?.any p = false := by
  match rest, h with
  | [], _ => rfl
  | u :: r, h =>
    have apart := List.all_eq_true.1 hp u (h u rfl)
    simpa using apart

theorem Delimits.head_ne (h : Delimits rest) (hu : delimiters.all (fun v => decide (v ≠ u)) = true) :
    rest.head? ≠ some u := by
  intro head
  exact absurd rfl (of_decide_eq_true (List.all_eq_true.1 hu u (h u head)))

/-! ## Symbols -/

/-- Whether a token that begins with a unit can only be a symbol, a tag or the name of a control operator. -/
def CodeUnit.opensMark (u : CodeUnit) : Bool :=
  !Cursor.isSpace u && u ≠ ';' && u ≠ '"' && u ≠ '\'' && !u.isDigit && u ≠ '-' && !u.startsName

theorem CodeUnit.opensMark_iff : u.opensMark = true ↔ Cursor.isSpace u = false ∧ u ≠ ofChar ';' ∧ u ≠ ofChar '"' ∧
    u ≠ ofChar '\'' ∧ u.isDigit = false ∧ u ≠ ofChar '-' ∧ u.startsName = false := by
  simp [opensMark, and_assoc]

/-- The ways in which a token can begin, in the order in which they are tried. -/
theorem scan_eq (u : CodeUnit) (r : Text) : scan u r =
    if u = ofChar '"' then Scan.text r
    else if u = ofChar '\'' then Scan.bytes .utf8 0 r
    else if decide (u = ofChar 'h') && decide (r.head? = some (ofChar '\'')) then Scan.bytes .base16 1 r
    else if decide (u = ofChar 'b') && decide (Text.ofString "64'" <+: r) then Scan.bytes .base64 3 r
    else if Numeral.startsHere (u :: r) then Scan.number (u :: r)
    else if u.startsName then .token (.mark .name) (Scan.nameLength r)
    else Scan.mark u r := rfl

theorem scan_eq_mark (h : u.opensMark = true) : scan u r = Scan.mark u r := by
  obtain ⟨_, _, text, bytes, digit, minus, name⟩ := CodeUnit.opensMark_iff.1 h
  have noBase16 : u ≠ ofChar 'h' := by
    rintro rfl
    exact absurd name (by decide)
  have noBase64 : u ≠ ofChar 'b' := by
    rintro rfl
    exact absurd name (by decide)
  have noNumeral : Numeral.startsHere (u :: r) = false := by
    simp [Numeral.startsHere, Numeral.startsWithDigit, digit, minus]
  simp only [scan_eq, if_neg text, if_neg bytes, noBase16, noBase64, noNumeral, name, decide_false, Bool.false_and,
    Bool.false_eq_true, if_false]

namespace Scan

/-- Whether a symbol is what any text begins with that goes on as given. -/
def standsOut (t gap : Text) (m : Mark) : Bool :=
  symbols.find? (fun p => decide (p.1 <+: t ++ gap) || decide (t ++ gap <+: p.1)) = some (t, m) &&
    t.head?.any CodeUnit.opensMark

/-- A symbol that is found among those that agree with the beginning of a text is found in the text. -/
theorem symbol?_append (h : symbols.find? (fun p => decide (p.1 <+: s) || decide (s <+: p.1)) = some (t, m))
    (ht : t <+: s) :
    symbol? (s ++ rest) = some (t, m) := by
  obtain ⟨_, before, behind, split, apart⟩ := List.find?_eq_some_iff_append.1 h
  unfold symbol?
  refine List.find?_eq_some_iff_append.2
    ⟨decide_eq_true (ht.trans (List.prefix_append s rest)), before, behind, split, ?_⟩
  intro p hp
  have agree := apart p hp
  simp only [Bool.not_eq_true', Bool.or_eq_false_iff, decide_eq_false_iff_not] at agree
  simp only [Bool.not_eq_true', decide_eq_false_iff_not]
  intro found
  rcases List.prefix_or_prefix_of_prefix found (List.prefix_append s rest) with h | h
  · exact agree.1 h
  · exact agree.2 h

/-- No symbol begins with a unit that none of them begins with. -/
theorem symbol?_none (h : symbols.all (fun p => decide (p.1.head? ≠ some u)) = true) : symbol? (u :: r) = none := by
  unfold symbol?
  rw [List.find?_eq_none]
  rintro ⟨t, m⟩ hp found
  have head := of_decide_eq_true (List.all_eq_true.1 h _ hp)
  have present : t ≠ [] := by
    have listed : symbols.all (fun p => decide (p.1 ≠ [])) = true := by decide
    exact of_decide_eq_true (List.all_eq_true.1 listed _ hp)
  obtain ⟨v, t, rfl⟩ := List.exists_cons_of_ne_nil present
  obtain ⟨rfl, _⟩ := List.cons_prefix_cons.1 (of_decide_eq_true found)
  exact head rfl

end Scan

/-- **A symbol is read from its text.** -/
theorem scanned_symbol (h : Scan.standsOut t gap m = true) : Scanned (.mark m) t (gap ++ rest) := by
  unfold Scan.standsOut at h
  rw [Bool.and_eq_true, decide_eq_true_iff] at h
  obtain ⟨found, opens⟩ := h
  match t, found, opens with
  | u :: r, found, opens =>
    have opens : u.opensMark = true := opens
    obtain ⟨space, comment, _⟩ := CodeUnit.opensMark_iff.1 opens
    refine ⟨u, r, rfl, space, comment, ?_⟩
    have symbol : Scan.symbol? ((u :: r ++ gap) ++ rest) = some (u :: r, m) :=
      Scan.symbol?_append found (List.prefix_append _ gap)
    rw [List.append_assoc, List.cons_append] at symbol
    rw [scan_eq_mark opens, Scan.mark, symbol]
    rfl

/-! ## Names -/

/-- A text that is a name as a whole. -/
def IsName (t : Text) : Prop := ∃ u r, t = u :: r ∧ u.startsName = true ∧ Scan.nameLength r = r.length

theorem Delimits.nameLength (h : Delimits rest) : Scan.nameLength rest = 0 := by
  match rest, h with
  | [], _ => rfl
  | u :: r, h =>
    have inName := h.not_any (p := CodeUnit.inName) (by decide)
    have joinsName := h.not_any (p := CodeUnit.joinsName) (by decide)
    simp only [List.head?_cons, Option.any_some] at inName joinsName
    rw [Scan.nameLength, inName, joinsName, if_neg Bool.false_ne_true, if_neg Bool.false_ne_true]

theorem nameLength_append (hr : Scan.nameLength r = r.length) (h : Delimits rest) :
    Scan.nameLength (r ++ rest) = r.length := by
  induction r with
  | nil => exact h.nameLength
  | cons u r ih =>
    rw [List.cons_append, Scan.nameLength, List.length_cons]
    rw [Scan.nameLength, List.length_cons] at hr
    by_cases inName : u.inName = true
    · rw [if_pos inName] at hr ⊢
      rw [ih (Nat.succ.inj hr)]
    · rw [if_neg inName] at hr ⊢
      by_cases joins : u.joinsName = true
      · rw [if_pos joins] at hr ⊢
        cases hn : Scan.nameLength r with
        | zero => rw [hn] at hr; cases hr
        | succ n =>
          rw [hn] at hr
          have whole : n + 1 = r.length := Nat.succ.inj hr
          rw [ih (hn.trans whole), ← whole]
      · rw [if_neg joins] at hr
        cases hr

/-- Every unit of a name may stand in one. -/
theorem mem_of_nameLength (hr : Scan.nameLength r = r.length) (hu : u ∈ r) : u.inName = true ∨ u.joinsName = true := by
  induction r with
  | nil => cases hu
  | cons v r ih =>
    rw [Scan.nameLength, List.length_cons] at hr
    by_cases inName : v.inName = true
    · rw [if_pos inName] at hr
      rcases List.mem_cons.1 hu with rfl | hu
      · exact .inl inName
      · exact ih (Nat.succ.inj hr) hu
    · rw [if_neg inName] at hr
      by_cases joins : v.joinsName = true
      · rw [if_pos joins] at hr
        rcases List.mem_cons.1 hu with rfl | hu
        · exact .inr joins
        · cases hn : Scan.nameLength r with
          | zero => rw [hn] at hr; cases hr
          | succ n =>
            rw [hn] at hr
            exact ih (hn.trans (Nat.succ.inj hr)) hu
      · rw [if_neg joins] at hr
        cases hr

theorem CodeUnit.not_isDigit_of_startsName (h : u.startsName = true) : u.isDigit = false := by
  simp only [startsName, isLetter, Bool.or_eq_true, Bool.and_eq_true, decide_eq_true_eq, UInt16.le_iff_toNat_le] at h
  refine Bool.eq_false_iff.2 fun digit => ?_
  simp only [isDigit, Bool.and_eq_true, decide_eq_true_eq, UInt16.le_iff_toNat_le] at digit
  have zero : (ofChar '0').toNat = 48 := by decide
  have nine : (ofChar '9').toNat = 57 := by decide
  have a : (ofChar 'a').toNat = 97 := by decide
  have A : (ofChar 'A').toNat = 65 := by decide
  rcases h with (((h | h) | rfl) | rfl) | rfl
  · omega
  · omega
  · exact absurd digit (by decide)
  · exact absurd digit (by decide)
  · exact absurd digit (by decide)

/-- A quote is no part of a name, so a name is not the beginning of a byte string. -/
theorem not_quote (hr : Scan.nameLength r = r.length) (h : Delimits rest) (n : Nat) (hn : n ≤ r.length) :
    (r ++ rest)[n]? ≠ some (ofChar '\'') := by
  intro quote
  rcases Nat.lt_or_eq_of_le hn with less | rfl
  · rw [List.getElem?_append_left less] at quote
    rcases mem_of_nameLength hr (List.mem_of_getElem? quote) with bad | bad
    · exact absurd bad (by decide)
    · exact absurd bad (by decide)
  · rw [List.getElem?_append_right (Nat.le_refl _), Nat.sub_self, ← List.head?_eq_getElem?] at quote
    exact h.head_ne (by decide) quote

theorem not_base64 (hr : Scan.nameLength r = r.length) (h : Delimits rest) : ¬ Text.ofString "64'" <+: r ++ rest := by
  have units : Text.ofString "64'" = [ofChar '6', ofChar '4', ofChar '\''] := by decide
  rintro ⟨tail, split⟩
  rw [units] at split
  have at_ (n : Nat) : (r ++ rest)[n]? = ([ofChar '6', ofChar '4', ofChar '\''] ++ tail)[n]? := by rw [split]
  have beyond (n : Nat) (hn : r.length = n) {u : CodeUnit} (hu : (r ++ rest)[n]? = some u) : u ∈ delimiters := by
    rw [List.getElem?_append_right (by omega), hn, Nat.sub_self, ← List.head?_eq_getElem?] at hu
    exact h u hu
  rcases Nat.lt_or_ge r.length 2 with short | long
  · match hl : r.length, short with
    | 0, _ => exact absurd (beyond 0 hl (at_ 0)) (by decide)
    | 1, _ => exact absurd (beyond 1 hl (at_ 1)) (by decide)
  · exact not_quote hr h 2 long (at_ 2)

theorem not_of_startsName {v : CodeUnit} (h : u.startsName = true) (hv : v.startsName = false) : u ≠ v := by
  rintro rfl
  rw [h] at hv
  cases hv

/-- What begins as a name does and is no byte string is scanned as a name. -/
theorem scan_name (starts : u.startsName = true) (base16 : ¬ (u = ofChar 'h' ∧ r.head? = some (ofChar '\'')))
    (base64 : ¬ (u = ofChar 'b' ∧ Text.ofString "64'" <+: r)) :
    scan u r = .token (.mark .name) (Scan.nameLength r) := by
  have noNumeral : Numeral.startsHere (u :: r) = false := by
    simp [Numeral.startsHere, Numeral.startsWithDigit, CodeUnit.not_isDigit_of_startsName starts,
      not_of_startsName starts (show (ofChar '-').startsName = false by decide)]
  rw [scan_eq, if_neg (not_of_startsName starts (by decide)), if_neg (not_of_startsName starts (by decide)),
    if_neg (by simpa using base16), if_neg (by simpa using base64), noNumeral, if_neg Bool.false_ne_true, if_pos starts]

theorem scanned_name (h : IsName t) (hr : Delimits rest) : Scanned (.mark .name) t rest := by
  obtain ⟨u, r, rfl, starts, name⟩ := h
  have space : Cursor.isSpace u = false := by
    simp [Cursor.isSpace, not_of_startsName starts (show (ofChar ' ').startsName = false by decide),
      not_of_startsName starts (show (ofChar '\t').startsName = false by decide),
      not_of_startsName starts (show (ofChar '\r').startsName = false by decide),
      not_of_startsName starts (show (ofChar '\n').startsName = false by decide)]
  refine ⟨u, r, rfl, space, not_of_startsName starts (by decide), ?_⟩
  have head : (r ++ rest).head? ≠ some (ofChar '\'') := by
    rw [List.head?_eq_getElem?]
    exact not_quote name hr 0 (Nat.zero_le _)
  rw [scan_name starts (fun h => head h.2) (fun h => not_base64 name hr h.2), nameLength_append name hr]

/-! ## Control operators and tags -/

/-- A symbol that begins with a dot goes on with another. -/
theorem symbol?_dot (h : u ≠ ofChar '.') : Scan.symbol? (ofChar '.' :: u :: r) = none := by
  unfold Scan.symbol?
  rw [List.find?_eq_none]
  rintro ⟨t, m⟩ hp found
  have listed : Scan.symbols.all (fun p => decide (p.1 ≠ []) && (decide (p.1.head? ≠ some (ofChar '.')) ||
      decide (p.1[1]? = some (ofChar '.')))) = true := by decide
  have dots := List.all_eq_true.1 listed _ hp
  obtain ⟨tail, split⟩ := of_decide_eq_true found
  match t, split, dots with
  | [], _, dots => cases dots
  | [v], split, dots =>
    obtain ⟨rfl, _⟩ := List.cons.inj split
    simp at dots
  | v :: v' :: t, split, dots =>
    obtain ⟨rfl, behind⟩ := List.cons.inj split
    obtain ⟨rfl, _⟩ := List.cons.inj behind
    simp [h] at dots

theorem scanned_control (h : IsName t) (hr : Delimits rest) : Scanned (.mark .control) (ofChar '.' :: t) rest := by
  obtain ⟨u, r, rfl, starts, name⟩ := h
  refine ⟨_, _, rfl, by decide, by decide, ?_⟩
  have whole : Scan.nameLength (u :: r) = (u :: r).length := by
    rw [Scan.nameLength, if_pos (show u.inName = true by rw [CodeUnit.inName, starts]; rfl), name, List.length_cons]
  have follows : Scan.startsWithName (u :: r ++ rest) = true := starts
  rw [scan_eq_mark (by decide), Scan.mark, List.cons_append, symbol?_dot (not_of_startsName starts (by decide)),
    ← List.cons_append]
  simp only [follows, nameLength_append whole hr, if_true, if_neg (show ofChar '.' ≠ ofChar '#' by decide)]

theorem Numeral.run_append {p : CodeUnit → Bool} (hs : s.all p = true) (hr : rest.head?.any p = false) :
    run p (s ++ rest) = s.length := by
  unfold run
  induction s with
  | nil =>
    match rest, hr with
    | [], _ => rfl
    | u :: r, hr => rw [List.nil_append, List.takeWhile_cons, if_neg (by simpa using hr)]
  | cons u s ih =>
    rw [List.all_cons, Bool.and_eq_true] at hs
    rw [List.cons_append, List.takeWhile_cons, if_pos hs.1, List.length_cons, ih hs.2, List.length_cons]

theorem Text.all_ofNat (n : Nat) : (ofNat n).all CodeUnit.isDigit = true :=
  List.all_eq_true.2 fun _ hu => isDigit_of_mem_ofNat hu

theorem Text.ofInt_natCast (n : Nat) : ofInt (n : Int) = ofNat n := by
  unfold ofInt
  rw [if_neg (by omega), Int.natAbs_natCast]

theorem Delimits.not_digit (h : Delimits rest) : rest.head?.any CodeUnit.isDigit = false := h.not_any (by decide)

theorem Delimits.fractionLength (h : Delimits rest) : Numeral.fractionLength rest = 0 := by
  have dot := h.head_ne (u := ofChar '.') (by decide)
  unfold Numeral.fractionLength
  rw [if_neg]
  rw [Bool.and_eq_true, decide_eq_true_iff]
  exact fun found => dot found.1

theorem scanned_hash (hr : Delimits rest) : Scanned (.mark .hash) "#" rest := by
  refine ⟨ofChar '#', [], rfl, by decide, by decide, ?_⟩
  have none : Numeral.run CodeUnit.isDigit rest = 0 := Numeral.run_append (s := []) rfl hr.not_digit
  rw [List.nil_append, scan_eq_mark (by decide), Scan.mark, Scan.symbol?_none (by decide)]
  simp only [if_true, Scan.hash, none]
  rfl

theorem Text.ofNat_digits (n : Nat) : Numeral.startsWithDigit (ofNat n ++ rest) = true := by
  obtain ⟨u, r, hn⟩ := List.exists_cons_of_ne_nil (ofNat_ne_nil n)
  rw [hn]
  exact isDigit_of_mem_ofNat (hn ▸ List.mem_cons_self)

/-- **A tag is read from its text.** -/
theorem scanned_tag (major : Nat) (number : Option Nat) (hr : Delimits rest) :
    Scanned (.tag major number) (ofChar '#' :: (Text.ofNat major ++ renderDotted (number.map Int.ofNat))) rest := by
  refine ⟨_, _, rfl, by decide, by decide, ?_⟩
  have pos := List.length_pos_iff.2 (Text.ofNat_ne_nil major)
  rw [scan_eq_mark (by decide), Scan.mark, Scan.symbol?_none (by decide), List.append_assoc]
  simp only [if_true, Scan.hash]
  cases number with
  | none =>
    have run := Numeral.run_append (Text.all_ofNat major) hr.not_digit
    simp only [Option.map_none, renderDotted, List.nil_append, run, List.drop_left', List.take_left', hr.fractionLength,
      Text.toNat_ofNat, if_true, List.append_nil, Nat.add_zero, if_neg (Nat.ne_of_gt pos)]
  | some n =>
    have dotted : renderDotted ((some n).map Int.ofNat) = ofChar '.' :: Text.ofNat n := by
      rw [Option.map_some, renderDotted, Int.ofNat_eq_natCast, Text.ofInt_natCast]
      rfl
    have run : Numeral.run CodeUnit.isDigit (Text.ofNat major ++ ofChar '.' :: (Text.ofNat n ++ rest)) =
        (Text.ofNat major).length :=
      Numeral.run_append (Text.all_ofNat major) (show CodeUnit.isDigit (ofChar '.') = false by decide)
    have digits := Numeral.run_append (Text.all_ofNat n) hr.not_digit
    have fraction : Numeral.fractionLength (ofChar '.' :: (Text.ofNat n ++ rest)) = (Text.ofNat n).length + 1 := by
      unfold Numeral.fractionLength
      rw [if_pos, List.drop_succ_cons, List.drop_zero, digits]
      rw [Bool.and_eq_true]
      exact ⟨rfl, Text.ofNat_digits n⟩
    have behind : (Text.ofNat major ++ ofChar '.' :: (Text.ofNat n ++ rest)).drop ((Text.ofNat major).length + 1) =
        Text.ofNat n ++ rest := by
      rw [← List.drop_drop, List.drop_left']
      · rfl
      · rfl
    rw [dotted, List.cons_append]
    simp only [run, List.drop_left', List.take_left', fraction, behind, Nat.add_sub_cancel, Text.toNat_ofNat,
      if_neg (Nat.ne_of_gt pos), Nat.succ_ne_zero, if_false, List.length_append, List.length_cons]

end Cddl
