import Cddl.Proofs.Layout.Literal
import Cddl.Proofs.Token.Break
import Cddl.Proofs.Token.Cut
import Mathlib.Data.List.Forall2
/-!
# Ranges with blanks in them

A range in one token can be written with blanks around its operator.  The text then has three tokens in its place, the
same tokens before them, and the same tokens behind them two units further on (`Cursor.Run.spaceOut`).
-/
namespace Cddl

open CodeUnit (ofChar)

variable {u c : CodeUnit} {r s : Text} {lower upper : Literal} {inclusive : Bool} {more : Nat}

/-- The text of the operator in a range. -/
def rangeMark (inclusive : Bool) : Text := if inclusive then ".." else "..."

/-- The text of a range with blanks around its operator. -/
def Token.spaced (t : Token) : Text :=
  match Numeral.read t.text with
  | .literal _ n =>
    let operator := Numeral.rangeLength (t.text.drop n)
    t.text.take n ++ (" " ++ ((t.text.drop n).take operator ++ (" " ++ t.text.drop (n + operator))))
  | .noDigits _ => t.text

theorem length_rangeMark (inclusive : Bool) : (rangeMark inclusive).length = if inclusive then 2 else 3 := by
  cases inclusive <;> decide

theorem take_rangeLength (some : Numeral.rangeLength s ≠ 0) :
    s.take (Numeral.rangeLength s) = rangeMark (Numeral.rangeLength s = 2) := by
  rcases (Numeral.rangeLength_spec some).1 with two | three
  · have dots := List.prefix_iff_eq_take.1 (Numeral.rangeLength_eq_two.1 two).2.1
    rw [Numeral.length_dots] at dots
    rw [two, ← dots]
    rfl
  · have dots := List.prefix_iff_eq_take.1 (Numeral.rangeLength_eq_three.1 three).1
    rw [Numeral.length_ellipsis] at dots
    rw [three, ← dots]
    rfl

/-- A text that begins with a range: its two bounds, the operator between them, and the rest of the text. -/
structure Bounds (s first last rest : Text) (lower upper : Literal) (inclusive : Bool) : Prop where
  split : s = first ++ (rangeMark inclusive ++ (last ++ rest))
  starts : Numeral.startsHere s = true
  lower : Numeral.read s = .literal lower first.length
  operator : Numeral.rangeLength (rangeMark inclusive ++ (last ++ rest)) = (rangeMark inclusive).length
  starts' : Numeral.startsHere (last ++ rest) = true
  upper : Numeral.read (last ++ rest) = .literal upper last.length

/-- What is scanned as a range is written as one. -/
theorem exists_bounds (h : scan u r = .token (.range lower upper inclusive) more) :
    ∃ first last rest, Bounds (u :: r) first last rest lower upper inclusive ∧
      more + 1 = first.length + ((rangeMark inclusive).length + last.length) := by
  obtain ⟨starts, number⟩ := scan_range h
  generalize u :: r = s at *
  unfold Scan.number at number
  split at number
  · cases number
  rename_i l n read
  simp only [] at number
  split at number
  · cases number
  rename_i some
  split at number
  · cases number
  rename_i v m read'
  injection number with body length
  injection body with hl hv hi
  subst hl hv hi
  obtain ⟨_, _, starts'⟩ := Numeral.rangeLength_spec some
  obtain ⟨pos, le⟩ := Numeral.read_length starts read
  rw [← List.drop_drop] at read'
  obtain ⟨pos', le'⟩ := Numeral.read_length starts' read'
  have operator := take_rangeLength some
  have behind := List.take_append_drop (Numeral.rangeLength (s.drop n)) (s.drop n)
  have reach := Numeral.lt_length_of_startsHere starts'
  have mark : (rangeMark (Numeral.rangeLength (s.drop n) = 2)).length = Numeral.rangeLength (s.drop n) := by
    rw [← operator, List.length_take, Nat.min_eq_left (Nat.le_of_lt reach)]
  have first : (s.take n).length = n := by rw [List.length_take, Nat.min_eq_left le]
  rw [operator] at behind
  generalize (s.drop n).drop (Numeral.rangeLength (s.drop n)) = x at *
  have last : (x.take m).length = m := by rw [List.length_take, Nat.min_eq_left le']
  have whole := List.take_append_drop m x
  refine ⟨s.take n, x.take m, x.drop m, ⟨?_, starts, ?_, ?_, ?_, ?_⟩, ?_⟩
  · rw [whole, behind, List.take_append_drop]
  · rw [first]
    exact read
  · rw [whole, behind]
    exact mark.symm
  · rw [whole]
    exact starts'
  · rw [whole, last]
    exact read'
  · rw [first, mark, last]
    omega

theorem Bounds.take_eq {first last rest : Text} (h : Bounds s first last rest lower upper inclusive) :
    s.take (first.length + ((rangeMark inclusive).length + last.length)) = first ++ (rangeMark inclusive ++ last) := by
  rw [h.split, ← List.append_assoc, ← List.append_assoc, List.take_left' (by simp), List.append_assoc]

/-! ## Blanks before a token -/

namespace Cursor

variable {l : Location} {gap lead : Text} {t : Token} {before us after : List Token} {fault : Option LexFault} {n : Nat}
  {body : Token.Body} {d : Cursor}

/-- What may stand before a token that begins with a unit. -/
def Gap (gap : Text) (u : CodeUnit) : Prop := ∀ r, triviaLength false (gap ++ u :: r) = gap.length

/-- Behind what ends the blanks of one text, blanks go on as they do from there. -/
theorem triviaLength_gap {comment : Bool} (h : triviaLength comment (gap ++ u :: r) = gap.length) (s : Text) :
    triviaLength comment (gap ++ s) = gap.length + triviaLength false s := by
  induction gap generalizing comment with
  | nil =>
    rw [List.nil_append, triviaLength] at h
    cases comment with
    | true => cases h
    | false => exact (Nat.zero_add _).symm
  | cons v gap ih =>
    rw [List.cons_append, triviaLength] at h ⊢
    rw [List.length_cons] at h ⊢
    split
    · rw [if_pos ‹_›] at h
      rw [ih (Nat.succ.inj h), Nat.add_right_comm]
    rw [if_neg ‹_›] at h
    split
    · rw [if_pos ‹_›] at h
      rw [ih (Nat.succ.inj h), Nat.add_right_comm]
    rw [if_neg ‹_›] at h
    split
    · rw [if_pos ‹_›] at h
      rw [ih (Nat.succ.inj h), Nat.add_right_comm]
    · rw [if_neg ‹_›] at h
      cases h

/-- What may stand before one token may stand before another. -/
theorem Gap.other {v : CodeUnit} (h : Gap gap u) (space : isSpace v = false)
    (comment : v ≠ ofChar ';') : Gap gap v := by
  intro r
  rw [triviaLength_gap (h []), triviaLength_token space comment, Nat.add_zero]

/-- A token begins with neither white space nor a comment. -/
theorem clear_of_gap (h : triviaLength false (gap ++ u :: r) = gap.length) : isSpace u = false ∧ u ≠ ofChar ';' := by
  have whole := triviaLength_gap h (u :: r)
  have here : triviaLength false (u :: r) = 0 := by omega
  exact clear_of_triviaLength here

theorem Gap.of_length (h : triviaLength false (gap ++ u :: r) = gap.length) : Gap gap u := by
  obtain ⟨space, comment⟩ := clear_of_gap h
  intro r'
  rw [triviaLength_gap h, triviaLength_token space comment, Nat.add_zero]

/-- The last unit before a token is white space; a comment does not end before the end of its line. -/
theorem isSpace_of_gap {comment : Bool} {v : CodeUnit} (h : triviaLength comment (gap ++ u :: r) = gap.length)
    (last : gap.getLast? = some v) : isSpace v = true := by
  have goes (s : Text) : triviaLength true (u :: s) ≠ 0 := Nat.succ_ne_zero _
  obtain ⟨gap, rfl⟩ := List.getLast?_eq_some_iff.1 last
  clear last
  induction gap generalizing comment with
  | nil =>
    refine Decidable.byContradiction fun dark => ?_
    rw [List.nil_append, List.singleton_append, triviaLength, if_neg dark] at h
    split at h
    · have feed : v ≠ ofChar '\n' := by
        rintro rfl
        exact dark (by decide)
      rw [decide_eq_true feed] at h
      exact goes r (Nat.succ.inj h)
    split at h
    · exact goes r (Nat.succ.inj h)
    · cases h
  | cons w gap ih =>
    rw [List.cons_append, List.cons_append, triviaLength, List.length_cons] at h
    split at h
    · exact ih (Nat.succ.inj h)
    split at h
    · exact ih (Nat.succ.inj h)
    split at h
    · exact ih (Nat.succ.inj h)
    · cases h

theorem next_of_gap (hg : Gap gap u) (scanned : scan u r = .token body n) : next ⟨l, gap ++ u :: r⟩ =
    (.ok ⟨body, u :: r.take n, l.past gap⟩, ⟨(l.past gap).past (u :: r.take n), r.drop n⟩) := by
  have inside : n + 1 ≤ (u :: r).length := Nat.succ_le_succ (scan_extent scanned)
  unfold next
  rw [skipTrivia_eq, hg r, List.take_left, List.drop_left]
  unfold readHere
  simp only [scanned]
  rw [skip_of_le _ inside]
  rfl

theorem exists_gap (h : (next ⟨l, s⟩).1 = .ok t) (more : t.is .endOfInput = false) :
    ∃ gap u r n, s = gap ++ u :: r ∧ Gap gap u ∧ scan u r = .token t.body n ∧
      t = ⟨t.body, u :: r.take n, l.past gap⟩ := by
  have blanks := List.take_append_drop (triviaLength false s) s
  have length : (s.take (triviaLength false s)).length = triviaLength false s := by
    rw [List.length_take, Nat.min_eq_left (triviaLength_le false s)]
  unfold next at h
  rw [skipTrivia_eq] at h
  cases left : s.drop (triviaLength false s) with
  | nil =>
    rw [left] at h
    cases h
    cases more
  | cons u r =>
    rw [left] at h blanks
    unfold readHere at h
    simp only [] at h
    split at h
    · rename_i body n scanned
      cases h
      refine ⟨_, u, r, n, blanks.symm, .of_length (r := r) ?_, scanned, rfl⟩
      rw [blanks, length]
    · cases h

/-! ## Tokens that stay -/

/-- What keeps a token at the end of a text apart from a unit does so in front of another text as well. -/
theorem breaksOff_append {b : CodeUnit} (h : BreaksOff (s ++ lead) b) : BreaksOff lead b := by
  rcases h with space | ⟨rfl, slashless⟩
  · exact .inl space
  · refine .inr ⟨rfl, fun slash => slashless ?_⟩
    rw [List.getLast?_append, slash]
    rfl

/-- A text that ends where the last of its tokens does. -/
inductive EndsWith : List Token → Text → Prop
  | nil : EndsWith [] []
  | last {ts : List Token} {t : Token} {s : Text} (ends : t.text <:+ s) : EndsWith (ts ++ [t]) s

theorem EndsWith.cons (h : EndsWith before s) (gap : Text) : EndsWith (t :: before) (gap ++ (t.text ++ s)) := by
  cases h with
  | nil => exact @EndsWith.last [] t _ ⟨gap, by simp⟩
  | @last ts v s ends =>
    rw [← List.cons_append]
    exact .last (ends.trans ((List.suffix_append _ _).trans (List.suffix_append _ _)))

theorem EndsWith.of_concat (h : EndsWith (before ++ [t]) s) : t.text <:+ s := by
  generalize hts : before ++ [t] = ts at h
  cases h with
  | nil => simp at hts
  | last ends =>
    obtain ⟨_, same⟩ := List.append_inj' hts rfl
    rwa [(List.cons.inj same).1]

/-- **What a text is read to up to some point does not change with what stands behind a break there.** -/
theorem Run.split {c : Cursor} (h : c.Run (before ++ us) fault) (hus : us ≠ []) :
    ∃ pre rest, c.rest = pre ++ rest ∧ Run ⟨c.place.past pre, rest⟩ us fault ∧
      EndsWith before pre ∧
      ∀ lead tail, rest = lead ++ tail → ∀ b, BreaksOff (pre ++ lead) b → ∀ other us' fault',
        Run ⟨c.place.past pre, lead ++ b :: other⟩ us' fault' →
          Run ⟨c.place, pre ++ (lead ++ b :: other)⟩ (before ++ us') fault' := by
  induction before generalizing c with
  | nil => exact ⟨[], c.rest, rfl, h, .nil, fun _ _ _ _ _ _ _ _ run => run⟩
  | cons v before ih =>
    obtain ⟨l, s⟩ := c
    rw [List.cons_append] at h
    generalize hts : v :: (before ++ us) = ts at h
    cases h with
    | fault => cases hts
    | ended =>
      obtain ⟨_, none⟩ := List.cons.inj hts
      exact absurd (List.append_eq_nil_iff.1 none).2 hus
    | token h more rest =>
      obtain ⟨rfl, rfl⟩ := List.cons.inj hts
      obtain ⟨gap, u, r, n, rfl, hg, scanned, place⟩ := exists_gap h more
      rw [next_of_gap hg scanned] at rest
      obtain ⟨pre, left, split, run, last, again⟩ := ih rest
      have inside := scan_extent scanned
      refine ⟨gap ++ (u :: r.take n ++ pre), left, ?_, ?_, ?_, fun lead tail hl b hb other us' fault' run' => ?_⟩
      · have whole := List.take_append_drop n r
        have split : r.drop n = pre ++ left := split
        rw [split] at whole
        simp [whole]
      · rw [Layout.past_append, Layout.past_append]
        exact run
      · have text : v.text = u :: r.take n := by rw [place]
        rw [← text]
        exact last.cons gap
      · -- the token that is read first needs nothing that stands behind what is kept
        have kept : r = r.take n ++ (pre ++ lead) ++ tail := by
          have whole := List.take_append_drop n r
          rw [show r.drop n = pre ++ left from split, hl] at whole
          simpa using whole.symm
        have length : (r.take n).length = n := by rw [List.length_take, Nat.min_eq_left inside]
        have short : n ≤ (r.take n ++ (pre ++ lead)).length := by
          rw [List.length_append, length]
          exact Nat.le_add_right _ _
        have here : BreaksOff (u :: (r.take n ++ (pre ++ lead))) b := breaksOff_append (s := gap) (by simpa using hb)
        have again' := scan_break here (t := other) (scan_cut (kept ▸ scanned) short)
        have read := next_of_gap (l := l) hg again'
        have text : gap ++ (u :: r.take n ++ pre) ++ (lead ++ b :: other) =
            gap ++ u :: (r.take n ++ (pre ++ lead) ++ b :: other) := by simp
        have taken : (r.take n ++ (pre ++ lead) ++ b :: other).take n = r.take n := by
          rw [List.append_assoc, List.take_append_of_le_length (Nat.le_of_eq length.symm), List.take_take, Nat.min_self]
        have dropped : (r.take n ++ (pre ++ lead) ++ b :: other).drop n = pre ++ (lead ++ b :: other) := by
          rw [List.append_assoc, List.drop_append_of_le_length (Nat.le_of_eq length.symm), List.drop_take, Nat.sub_self,
            List.take_zero, List.nil_append, List.append_assoc]
        rw [text, List.cons_append]
        rw [taken, dropped, ← place] at read
        refine .token (congrArg Prod.fst read) more ?_
        rw [read]
        rw [Layout.past_append, Layout.past_append] at run'
        exact again lead tail hl b (breaksOff_append (s := gap ++ u :: r.take n) (by simpa using hb))
          other us' fault' run'

end Cursor

/-! ## Tokens that are moved -/

/-- The same token some units further on. -/
structure Token.Moved (k : Int) (t t' : Token) : Prop where
  body : t'.body = t.body
  text : t'.text = t.text
  offset : t'.location.offset = t.location.offset + k

/-- Three tokens for a range that begins somewhere, and what stands behind it two units further on. -/
inductive InThree (start : Location) (lower upper : Literal) (inclusive : Bool) (after : List Token) :
    List Token → Prop
  | tokens {a b c : Token} {after' : List Token} (first : a.body = .value lower) (place : a.location = start)
      (operator : Production.operatorSymbol? b = some (.range inclusive)) (last : c.body = .value upper)
      (moved : List.Forall₂ (Token.Moved 2) after after') :
      InThree start lower upper inclusive after (a :: b :: c :: after')

namespace Cursor

variable {l l' : Location} {gap : Text} {t : Token} {before us after : List Token} {fault : Option LexFault}

/-- A text is read to the same tokens wherever it begins. -/
theorem Run.moved_on (h : Run ⟨l, s⟩ us fault) (whole : fault = none) (l' : Location) :
    ∃ us', Run ⟨l', s⟩ us' none ∧ List.Forall₂ (Token.Moved (l'.offset - l.offset)) us us' := by
  generalize hc : (⟨l, s⟩ : Cursor) = c at h
  induction h generalizing l l' s with
  | fault => cases whole
  | ended h ends =>
    subst hc
    obtain ⟨gap, rest, split, location, next⟩ := next_anywhere h
    refine ⟨_, .ended (congrArg Prod.fst (next l')) ends, .cons ⟨rfl, rfl, ?_⟩ .nil⟩
    simp only [location, Layout.offset_past]
    omega
  | @token c t ts fault h more rest ih =>
    subst hc
    obtain ⟨gap, left, split, location, next⟩ := next_anywhere h
    have again := next l'
    rw [next l] at ih
    obtain ⟨us', run, moved⟩ := ih whole ((l'.past gap).past t.text) rfl
    refine ⟨_, .token (congrArg Prod.fst again) more (by rw [again]; exact run), .cons ⟨rfl, rfl, ?_⟩ ?_⟩
    · simp only [location, Layout.offset_past]
      omega
    · have shift : ((l'.past gap).past t.text).offset - ((l.past gap).past t.text).offset = l'.offset - l.offset := by
        simp only [Layout.offset_past]
        omega
      rwa [shift] at moved

end Cursor

/-! ## Tokens that are set apart -/

namespace Bounds

variable {first last rest : Text}

theorem starts_first (h : Bounds s first last rest lower upper inclusive) : Numeral.startsHere first = true := by
  have starts := h.starts
  have read := h.lower
  rw [h.split] at starts read
  exact Numeral.startsHere_of_read starts read (Nat.le_refl _)

/-- The lower bound is a numeral of its own. -/
theorem read_first (h : Bounds s first last rest lower upper inclusive) :
    Numeral.read first = .literal lower first.length := by
  have starts := h.starts
  have read := h.lower
  rw [h.split] at starts read
  exact Numeral.read_cut starts read (Nat.le_refl _)

theorem spaced (h : Bounds s first last rest lower upper inclusive) (body : Token.Body) (l : Location) :
    Token.spaced ⟨body, first ++ (rangeMark inclusive ++ last), l⟩ =
      first ++ (" " ++ (rangeMark inclusive ++ (" " ++ last))) := by
  have read : Numeral.read (first ++ (rangeMark inclusive ++ last)) = .literal lower first.length := by
    have starts := h.starts
    have read := h.lower
    have split : s = first ++ (rangeMark inclusive ++ last) ++ rest := by simp [h.split]
    rw [split] at starts read
    refine Numeral.read_cut starts read ?_
    rw [List.length_append]
    exact Nat.le_add_right _ _
  have operator : Numeral.rangeLength (rangeMark inclusive ++ last) = (rangeMark inclusive).length := by
    have whole := h.operator
    rw [← List.append_assoc] at whole
    rw [← whole]
    apply Numeral.rangeLength_cut
    · rw [whole, length_rangeMark]
      split <;> decide
    · rw [whole, List.drop_left]
      exact Numeral.startsHere_of_read h.starts' h.upper (Nat.le_refl _)
  have behind : (first ++ (rangeMark inclusive ++ last)).drop (first.length + (rangeMark inclusive).length) = last := by
    rw [← List.drop_drop, List.drop_left, List.drop_left]
  unfold Token.spaced
  simp only [read, List.drop_left, operator, List.take_left, behind]

end Bounds

namespace Cursor

variable {l l' : Location} {gap : Text} {t : Token} {before us after : List Token} {fault : Option LexFault}

/-- Two dots are taken for a range operator, with a third one or without. -/
theorem scan_dots (h : Text.ofString ".." <+: u :: r) : ∃ n, scan u r = .token (.mark .rangeOperator) n := by
  have dots : Text.ofString ".." = [ofChar '.', ofChar '.'] := by decide
  have listed : (Text.ofString "..", Mark.rangeOperator) ∈ Scan.symbols := by decide
  have sole : ∀ q ∈ Scan.symbols, q.1.head? = some (ofChar '.') → q.2 = .rangeOperator := by decide
  have filled : ∀ q ∈ Scan.symbols, q.1 ≠ [] := by decide
  rw [dots] at h
  obtain ⟨rfl, _⟩ := List.cons_prefix_cons.1 h
  have opens : CodeUnit.opensMark (ofChar '.') = true := by decide
  rw [scan_eq_mark opens, Scan.mark]
  cases found : Scan.symbol? (ofChar '.' :: r) with
  | none =>
    rw [Scan.symbol?, List.find?_eq_none] at found
    exact absurd (decide_eq_true (dots ▸ h)) (found _ listed)
  | some q =>
    obtain ⟨t, m⟩ := q
    have mem := List.mem_of_find?_eq_some found
    obtain ⟨v, t, rfl⟩ := List.exists_cons_of_ne_nil (filled _ mem)
    obtain ⟨rfl, _⟩ := List.cons_prefix_cons.1 (Scan.spelling_of_symbol? found)
    obtain rfl := sole _ mem rfl
    exact ⟨_, rfl⟩

/-- What is scanned where a text begins is the first token of its run. -/
theorem Run.nextIs_of_scan {m : Mark} (h : Run ⟨l, u :: r⟩ us fault) (hg : Gap [] u)
    (scanned : scan u r = .token (.mark m) n) : nextIs m us = true := by
  have read := next_of_gap (l := l) hg scanned
  rw [List.nil_append] at read
  generalize hc : (⟨l, u :: r⟩ : Cursor) = c at *
  have is : nextIs m [⟨.mark m, u :: r.take n, l.past []⟩] = true := Token.is_iff.2 rfl
  cases h with
  | ended h =>
    rw [read] at h
    cases h
    exact is
  | fault h =>
    rw [read] at h
    cases h
  | token h =>
    rw [read] at h
    cases h
    exact is

/-- What goes on with a range is read as its operator. -/
theorem Run.rangeLength_eq (h : Run ⟨l, s⟩ us fault) (free : nextIs .rangeOperator us = false) :
    Numeral.rangeLength s = 0 := by
  refine Decidable.byContradiction fun some => ?_
  obtain ⟨_, dots, _⟩ := Numeral.rangeLength_spec some
  have filled : s ≠ [] := by
    rintro rfl
    exact absurd (List.prefix_nil.1 dots) (by decide)
  obtain ⟨u, r, rfl⟩ := List.exists_cons_of_ne_nil filled
  obtain ⟨n, scanned⟩ := scan_dots dots
  have hg : Gap [] u := by
    have first : u = ofChar '.' := by
      rw [show Text.ofString ".." = [ofChar '.', ofChar '.'] by decide] at dots
      exact (List.cons_prefix_cons.1 dots).1.symm
    rw [first]
    exact fun r => triviaLength_token (by decide) (by decide)
  exact absurd (free.symm.trans (h.nextIs_of_scan hg scanned)) Bool.false_ne_true

theorem Run.of_bounds {first last rest : Text} (h : Bounds (u :: r) first last rest lower upper inclusive)
    (hg : Gap gap u) (run : Run ⟨(l.past gap).past (first ++ (rangeMark inclusive ++ last)), rest⟩ after none)
    (free : Numeral.rangeLength rest = 0) :
    ∃ ts, Run ⟨l, gap ++ (first ++ (" " ++ (rangeMark inclusive ++ (" " ++ (last ++ rest)))))⟩ ts none ∧
      InThree (l.past gap) lower upper inclusive after ts := by
  have blank : (" " : Text) = [ofChar ' '] := by decide
  have space : ofChar ' ' ∈ breaks := by decide
  have last_ne : last ≠ [] := by
    rintro rfl
    exact absurd (Numeral.read_length h.starts' h.upper).1 (by simp)
  have first_ne : first ≠ [] := by
    rintro rfl
    exact absurd (Numeral.read_length h.starts h.lower).1 (by simp)
  have lower_scanned : Scanned (.value lower) first (" " ++ (rangeMark inclusive ++ (" " ++ (last ++ rest)))) := by
    refine scanned_numeral first_ne (Numeral.startsHere_append h.starts_first _) ?_ ?_
    · rw [blank, List.singleton_append, Numeral.read_break space, h.read_first]
    · rw [blank]
      exact Numeral.rangeLength_delimits (delimits_cons (by decide))
  have operator_scanned : Scanned (.mark .rangeOperator) (rangeMark inclusive) (" " ++ (last ++ rest)) := by
    cases inclusive with
    | true => exact scanned_symbol (by decide)
    | false => exact scanned_symbol (by decide)
  have upper_scanned : Scanned (.value upper) last rest := scanned_numeral last_ne h.starts' h.upper free
  obtain ⟨v, w, rfl, _, _, scanned⟩ := lower_scanned
  obtain rfl : u = v := (List.cons.inj h.split).1
  have read := next_of_gap (l := l) hg scanned
  rw [List.take_left, List.drop_left] at read
  have read' := next_of_scanned (l := (l.past gap).past (u :: w)) (s := " ") (by decide) operator_scanned
  have read'' := next_of_scanned (l := (((l.past gap).past (u :: w)).past " ").past (rangeMark inclusive)) (s := " ")
    (by decide) upper_scanned
  obtain ⟨after', run', moved⟩ := run.moved_on rfl
    ((((((l.past gap).past (u :: w)).past " ").past (rangeMark inclusive)).past " ").past last)
  have shift : ((((((l.past gap).past (u :: w)).past " ").past (rangeMark inclusive)).past " ").past last).offset -
      ((l.past gap).past (u :: w ++ (rangeMark inclusive ++ last))).offset = 2 := by
    simp only [Layout.offset_past, blank, List.length_append, List.length_singleton]
    omega
  rw [shift] at moved
  have symbol (l : Location) : Production.operatorSymbol? ⟨.mark .rangeOperator, rangeMark inclusive, l⟩ =
      some (.range inclusive) := by cases inclusive <;> rfl
  have third := Run.token (congrArg Prod.fst read'') upper_scanned.not_end (by rw [read'']; exact run')
  have second := Run.token (congrArg Prod.fst read') operator_scanned.not_end (by rw [read']; exact third)
  have first := Run.token (congrArg Prod.fst read) (Token.not_is_of_value rfl) (by rw [read]; exact second)
  exact ⟨_, first, .tokens rfl rfl (symbol _) rfl moved⟩

/-- **A range that is written with blanks around its operator is read to three tokens.** -/
theorem Run.spaced_here (h : Run ⟨l, s⟩ (t :: after) none) (body : t.body = .range lower upper inclusive)
    (free : nextIs .rangeOperator after = false) : ∃ gap lead tail other rest, s = gap ++ (t.text ++ rest) ∧
      t.location = l.past gap ∧ t.text = lead ++ tail ∧ t.spaced = lead ++ ofChar ' ' :: other ∧
        ∃ ts, Run ⟨l, gap ++ (t.spaced ++ rest)⟩ ts none ∧ InThree t.location lower upper inclusive after ts := by
  have more : t.is .endOfInput = false := Token.not_is_of_range body
  generalize hts : t :: after = ts at h
  generalize hc : (⟨l, s⟩ : Cursor) = c at h
  cases h with
  | ended h ends =>
    obtain ⟨rfl, _⟩ := List.cons.inj hts
    rw [more] at ends
    cases ends
  | token h more run =>
    obtain ⟨rfl, rfl⟩ := List.cons.inj hts
    subst hc
    obtain ⟨gap, u, r, n, rfl, hg, scanned, place⟩ := exists_gap h more
    rw [body] at scanned
    rw [next_of_gap hg scanned] at run
    obtain ⟨first, last, rest, bounds, length⟩ := exists_bounds scanned
    have rest_eq : r.drop n = rest := by
      have drop := congrArg (List.drop (n + 1)) bounds.split
      rw [List.drop_succ_cons] at drop
      rw [drop, length, ← List.drop_drop, ← List.drop_drop, List.drop_left, List.drop_left, List.drop_left]
    have text : u :: r.take n = first ++ (rangeMark inclusive ++ last) := by
      rw [← List.take_succ_cons, length]
      exact bounds.take_eq
    have spaced : t.spaced = first ++ (" " ++ (rangeMark inclusive ++ (" " ++ last))) := by
      rw [place, text]
      exact bounds.spaced _ _
    have text' : t.text = first ++ (rangeMark inclusive ++ last) := by
      rw [place]
      exact text
    rw [rest_eq] at run
    rw [text] at run
    obtain ⟨ts, run', three⟩ := Run.of_bounds bounds hg run (run.rangeLength_eq free)
    have location : t.location = l.past gap := by rw [place]
    refine ⟨gap, first, rangeMark inclusive ++ last, rangeMark inclusive ++ (" " ++ last), rest, ?_,
      location, text', spaced, ts, ?_, location ▸ three⟩
    · rw [text', bounds.split]
      simp
    · rw [spaced]
      simpa using run'

/-- A text in which a range is written with blanks has three tokens in its place, and the others are as they were. -/
theorem Run.spaced {c : Cursor} (h : c.Run (before ++ t :: after) none) (body : t.body = .range lower upper inclusive)
    (free : nextIs .rangeOperator after = false) : ∃ pre rest, c.rest = pre ++ (t.text ++ rest) ∧
      t.location = c.place.past pre ∧ ∃ ts, Run ⟨c.place, pre ++ (t.spaced ++ rest)⟩ (before ++ ts) none ∧
        InThree t.location lower upper inclusive after ts := by
  obtain ⟨pre, left, split, run, _, again⟩ := h.split (List.cons_ne_nil t after)
  obtain ⟨gap, lead, tail, other, rest, rfl, location, text, spaced, ts, run', three⟩ := run.spaced_here body free
  have space : ofChar ' ' ∈ separators := by decide
  have kept : gap ++ (t.text ++ rest) = gap ++ lead ++ (tail ++ rest) := by simp [text]
  have whole : gap ++ (t.spaced ++ rest) = gap ++ lead ++ ofChar ' ' :: (other ++ rest) := by simp [spaced]
  rw [whole] at run'
  have joined := again _ _ kept _ (.inl space) _ _ _ run'
  rw [← whole, ← List.append_assoc] at joined
  refine ⟨pre ++ gap, rest, ?_, ?_, ts, joined, three⟩
  · rw [split, List.append_assoc]
  · rw [location, Layout.past_append]

end Cursor

/-! ## Texts -/

/-- A text with blanks around the operator of a range in it. -/
def spaceOut (source : Text) (t : Token) : Text :=
  source.take t.location.offset.toNat ++ (t.spaced ++ source.drop (t.location.offset.toNat + t.text.length))

/-- To write something else for a token is to write it between the texts before and behind the token. -/
theorem splice_eq {source pre rest s : Text} {t : Token} (split : source = pre ++ (t.text ++ rest))
    (place : t.location = Location.past .start pre) :
    source.take t.location.offset.toNat ++ (s ++ source.drop (t.location.offset.toNat + t.text.length)) =
      pre ++ (s ++ rest) := by
  have offset : t.location.offset = pre.length := by
    rw [place, Layout.offset_past]
    exact Int.zero_add _
  rw [offset, Int.toNat_natCast, split, List.take_left, ← List.drop_drop, List.drop_left, List.drop_left]

theorem spaceOut_eq {source pre rest : Text} {t : Token} (split : source = pre ++ (t.text ++ rest))
    (place : t.location = Location.past .start pre) : spaceOut source t = pre ++ (t.spaced ++ rest) :=
  splice_eq split place

/-- **A text in which a range is written with blanks is read to three tokens for it, and to the others as before.** -/
theorem Cursor.Run.spaceOut {source : Text} {t : Token} {before after : List Token}
    (h : (Cursor.start source).Run (before ++ t :: after) none) (body : t.body = .range lower upper inclusive)
    (free : nextIs .rangeOperator after = false) : ∃ ts,
      (Cursor.start (spaceOut source t)).Run (before ++ ts) none ∧
      InThree t.location lower upper inclusive after ts := by
  obtain ⟨pre, rest, split, place, told⟩ := h.spaced body free
  rw [show Cddl.spaceOut source t = pre ++ (t.spaced ++ rest) from spaceOut_eq split place]
  exact told

end Cddl
