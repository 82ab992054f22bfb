import Cddl.Proofs.Token.Run
/-!
# The tokens of a text tile it

A text that is read to its end is cut into tokens and blanks: every unit of it belongs to one token or to the white
space and comments between two of them (`tokenize_tiles`).
-/
namespace Cddl

open CodeUnit (ofChar)

/-- The units of a text from one offset up to another. -/
def Text.slice (s : Text) (start stop : Int) : Text := (s.take stop.toNat).drop start.toNat

theorem Text.slice_append {s t r : Text} {start stop : Int} (hstart : start = s.length)
    (hstop : stop = s.length + t.length) : (s ++ (t ++ r)).slice start stop = t := by
  have first : start.toNat = s.length := by omega
  have last : stop.toNat = s.length + t.length := by omega
  unfold slice
  rw [first, last, List.take_length_add_append, List.drop_left, List.take_left]

theorem Text.drop_append {s r : Text} {start : Int} (hstart : start = s.length) : (s ++ r).drop start.toNat = r := by
  have first : start.toNat = s.length := by omega
  rw [first, List.drop_left]

/-! ## Blanks -/

/-- White space and comments, with the given text after them.  A comment takes all that is left of its line. -/
inductive Trivia : Text → Text → Prop
  | nil {after : Text} : Trivia [] after
  | space {u : CodeUnit} {r after : Text} (is : u = ofChar ' ' ∨ u = ofChar '\t' ∨ u = ofChar '\r' ∨ u = ofChar '\n')
      (rest : Trivia r after) : Trivia (u :: r) after
  | comment {line r after : Text} (inside : ∀ u ∈ line, u ≠ ofChar '\n')
      (ends : ∀ u, (r ++ after).head? = some u → u = ofChar '\n') (rest : Trivia r after) :
      Trivia (ofChar ';' :: (line ++ r)) after

namespace Cursor

theorem isSpace_iff {u : CodeUnit} :
    isSpace u = true ↔ u = ofChar ' ' ∨ u = ofChar '\t' ∨ u = ofChar '\r' ∨ u = ofChar '\n' := by
  simp only [isSpace, Bool.or_eq_true, decide_eq_true_eq, or_assoc]

/-- A comment ends before the first line feed, and blanks go on from there. -/
theorem exists_comment : ∀ s : Text, ∃ line rest, s = line ++ rest ∧ (∀ u ∈ line, u ≠ ofChar '\n') ∧
    (∀ u, rest.head? = some u → u = ofChar '\n') ∧ triviaLength true s = line.length + triviaLength false rest
  | [] => ⟨[], [], rfl, fun _ h => absurd h List.not_mem_nil, fun _ h => (by cases h), rfl⟩
  | u :: r => by
    by_cases feed : u = ofChar '\n'
    · subst feed
      exact ⟨[], ofChar '\n' :: r, rfl, fun _ h => absurd h List.not_mem_nil, fun _ h => (Option.some.inj h).symm,
        (Nat.zero_add _).symm⟩
    · obtain ⟨line, rest, rfl, inside, ends, length⟩ := exists_comment r
      refine ⟨u :: line, rest, rfl, List.forall_mem_cons.2 ⟨feed, inside⟩, ends, ?_⟩
      rw [triviaLength, if_pos rfl, decide_eq_true feed, length, List.length_cons]
      omega

/-- What is skipped before a token are blanks. -/
theorem trivia_take : ∀ s : Text, Trivia (s.take (triviaLength false s)) (s.drop (triviaLength false s))
  | [] => .nil
  | u :: r => by
    rw [triviaLength, if_neg Bool.false_ne_true]
    by_cases space : isSpace u = true
    · rw [if_pos space]
      exact .space (isSpace_iff.1 space) (trivia_take r)
    rw [if_neg space]
    by_cases semicolon : u = ofChar ';'
    · obtain ⟨line, rest, split, inside, ends, length⟩ := exists_comment r
      have shorter : rest.length ≤ r.length := by
        rw [split, List.length_append]
        omega
      have blanks := trivia_take rest
      subst semicolon split
      rw [if_pos rfl, length, List.take_succ_cons, List.drop_succ_cons, List.take_length_add_append,
        List.drop_length_add_append]
      refine .comment inside (fun u h => ends u ?_) blanks
      rwa [List.take_append_drop] at h
    · rw [if_neg semicolon]
      exact .nil
termination_by s => s.length
decreasing_by
  · exact Nat.lt_succ_self _
  · exact Nat.lt_succ_of_le shorter

end Cursor

/-- What goes on behind the line of a comment. -/
theorem Cursor.triviaLength_line {line s : Text} (inside : ∀ u ∈ line, u ≠ ofChar '\n')
    (ends : ∀ u, s.head? = some u → u = ofChar '\n') :
    triviaLength true (line ++ s) = line.length + triviaLength false s := by
  induction line with
  | nil =>
    cases s with
    | nil => rfl
    | cons u s =>
      obtain rfl := ends u rfl
      exact (Nat.zero_add _).symm
  | cons u line ih =>
    obtain ⟨dark, inside⟩ := List.forall_mem_cons.1 inside
    rw [List.cons_append, triviaLength, if_pos rfl, decide_eq_true dark, ih inside, List.length_cons]
    omega

/-- Blanks are skipped, and what else can be. -/
theorem Trivia.triviaLength {gap after : Text} (h : Trivia gap after) :
    Cursor.triviaLength false (gap ++ after) = gap.length + Cursor.triviaLength false after := by
  induction h with
  | nil => exact (Nat.zero_add _).symm
  | space is _ ih =>
    rw [List.cons_append, Cursor.triviaLength, if_neg Bool.false_ne_true, if_pos (Cursor.isSpace_iff.2 is), ih,
      List.length_cons]
    omega
  | comment inside ends _ ih =>
    rw [List.cons_append, Cursor.triviaLength, if_neg Bool.false_ne_true, if_neg (by decide), if_pos rfl,
      List.append_assoc, Cursor.triviaLength_line inside ends, ih, List.length_cons, List.length_append]
    omega

/-! ## Tilings -/

/-- A text that begins at an offset is made of blanks and tokens in turn, with blanks up to the end of input. -/
inductive Tiles : Int → Text → List Token → Prop
  | ended {lo : Int} {gap : Text} {t : Token} (blank : Trivia gap []) (ends : t.is .endOfInput = true)
      (place : t.location.offset = lo + gap.length) : Tiles lo gap [t]
  | token {lo : Int} {gap rest : Text} {t : Token} {ts : List Token} (blank : Trivia gap (t.text ++ rest))
      (more : t.is .endOfInput = false) (taken : t.text ≠ []) (place : t.location.offset = lo + gap.length)
      (tiles : Tiles t.stop.offset rest ts) : Tiles lo (gap ++ (t.text ++ rest)) (t :: ts)

/-- What is to be said of the tokens that a text is read to. -/
structure Tiling (source : Text) (ts : List Token) : Prop where
  /-- The end of input comes once, as the last token, at the end of the text. -/
  ended : ∃ (before : List Token) (last : Token), ts = before ++ [last] ∧ Unended before ∧ last.is .endOfInput = true ∧
    last.location.offset = source.length
  /-- Every other token has a text, which stands in the source where the token does. -/
  text : ∀ t ∈ ts, t.is .endOfInput = false → t.text ≠ [] ∧ 0 ≤ t.location.offset ∧
    source.slice t.location.offset (t.location.offset + t.text.length) = t.text
  /-- No token begins before an earlier one has ended. -/
  apart : ts.Pairwise fun (t u : Token) => t.location.offset + t.text.length ≤ u.location.offset
  /-- From the end of the token before, or the start of the text, up to a token there is nothing but blanks. -/
  gaps : ∀ i t, ts[i]? = some t → Trivia (source.slice (stopAfter .start (ts.take i)).offset t.location.offset)
    (source.drop t.location.offset.toNat)
  length_le : ts.length ≤ source.length + 1

namespace Tiles

variable {lo : Int} {s behind : Text} {t : Token} {ts : List Token}

theorem ended_last (h : Tiles lo s ts) : ∃ (before : List Token) (last : Token), ts = before ++ [last] ∧
    Unended before ∧ last.is .endOfInput = true ∧ last.location.offset = lo + s.length := by
  induction h with
  | @ended lo gap t _ ends place => exact ⟨[], t, rfl, unended_nil, ends, place⟩
  | @token lo gap rest t ts _ more _ place _ ih =>
    obtain ⟨before, last, rfl, unended, ends, offset⟩ := ih
    refine ⟨t :: before, last, rfl, unended_cons.2 ⟨more, unended⟩, ends, ?_⟩
    simp only [Token.stop, Location.shift, List.length_append] at offset ⊢
    omega

theorem le_offset (h : Tiles lo s ts) : ∀ t ∈ ts, lo ≤ t.location.offset := by
  induction h with
  | ended _ _ place =>
    intro t ht
    rw [List.mem_singleton.1 ht]
    omega
  | @token lo gap rest t ts _ _ _ place _ ih =>
    intro u hu
    rcases List.mem_cons.1 hu with rfl | hu
    · omega
    · have := ih u hu
      simp only [Token.stop, Location.shift] at this
      omega

/-- Where a token and what follows it begin, behind a text and a gap. -/
theorem offsets_eq {gap : Text} (place : t.location.offset = lo + gap.length) (hlo : lo = behind.length) :
    t.location.offset = (behind ++ gap).length ∧ t.stop.offset = (behind ++ gap ++ t.text).length := by
  simp only [Token.stop, Location.shift, List.length_append]
  omega

theorem text_eq (h : Tiles lo s ts) : ∀ behind : Text, lo = behind.length → ∀ t ∈ ts, t.is .endOfInput = false →
    t.text ≠ [] ∧ 0 ≤ t.location.offset ∧
      (behind ++ s).slice t.location.offset (t.location.offset + t.text.length) = t.text := by
  induction h with
  | ended _ ends _ =>
    intro behind _ t ht more
    rw [List.mem_singleton.1 ht, ends] at more
    cases more
  | @token lo gap rest t ts _ _ taken place _ ih =>
    intro behind hlo u hu more
    obtain ⟨offset, stop⟩ := offsets_eq place hlo
    rw [← List.append_assoc]
    rcases List.mem_cons.1 hu with rfl | hu
    · exact ⟨taken, by omega, Text.slice_append offset (by omega)⟩
    · rw [← List.append_assoc]
      exact ih _ stop u hu more

theorem pairwise (h : Tiles lo s ts) :
    ts.Pairwise fun (t u : Token) => t.location.offset + t.text.length ≤ u.location.offset := by
  induction h with
  | ended => exact List.pairwise_singleton _ _
  | token _ _ _ _ tiles ih => exact .cons (fun u hu => tiles.le_offset u hu) ih

theorem trivia_slice (h : Tiles lo s ts) : ∀ (behind : Text) (pre : Location), lo = behind.length → pre.offset = lo →
    ∀ i t, ts[i]? = some t → Trivia ((behind ++ s).slice (stopAfter pre (ts.take i)).offset t.location.offset)
      ((behind ++ s).drop t.location.offset.toNat) := by
  induction h with
  | @ended lo gap t blank _ place =>
    intro behind pre hlo hpre i u hu
    obtain ⟨rfl, rfl⟩ : i = 0 ∧ t = u := by
      cases i with
      | zero => exact ⟨rfl, Option.some.inj hu⟩
      | succ i => cases hu
    have whole := (offsets_eq place hlo).1
    have split : behind ++ gap = behind ++ (gap ++ []) := by rw [List.append_nil]
    rw [List.take_zero, stopAfter, whole, Int.toNat_natCast, List.drop_length, split,
      Text.slice_append (by omega) (by rw [List.append_nil, List.length_append]; rfl)]
    exact blank
  | @token lo gap rest t ts blank _ _ place _ ih =>
    intro behind pre hlo hpre i u hu
    obtain ⟨offset, stop⟩ := offsets_eq place hlo
    cases i with
    | zero =>
      cases hu
      rw [List.take_zero, stopAfter, Text.slice_append (by omega) (by omega), ← List.append_assoc,
        Text.drop_append offset]
      exact blank
    | succ i =>
      rw [List.take_succ_cons, stopAfter, ← List.append_assoc, ← List.append_assoc]
      exact ih _ _ stop rfl i u hu

theorem length_le (h : Tiles lo s ts) : ts.length ≤ s.length + 1 := by
  induction h with
  | ended => exact Nat.succ_le_succ (Nat.zero_le _)
  | token _ _ taken _ _ ih =>
    have := List.length_pos_iff.2 taken
    simp only [List.length_cons, List.length_append]
    omega

theorem tiling {source : Text} (h : Tiles 0 source ts) : Tiling source ts where
  ended := by
    obtain ⟨before, last, rfl, unended, ends, offset⟩ := h.ended_last
    exact ⟨before, last, rfl, unended, ends, offset.trans (Int.zero_add _)⟩
  text := h.text_eq [] rfl
  apart := h.pairwise
  gaps := h.trivia_slice [] .start rfl rfl
  length_le := h.length_le

end Tiles

/-! ## The tokens of a text -/

namespace Cursor.Run

variable {c : Cursor} {ts : List Token} {fault : Option LexFault}

/-- What a run takes is what lies between the cursor and the end. -/
theorem tiles (h : c.Run ts fault) (ended : fault = none) : Tiles c.place.offset c.rest ts := by
  induction h with
  | fault => cases ended
  | @ended c t h ends =>
    have blanks := trivia_take c.rest
    obtain ⟨all, _, place⟩ := next_end h ends
    rw [all, List.take_length, List.drop_length] at blanks
    exact .ended blanks ends place
  | @token c t ts fault h more _ ih =>
    have blanks := trivia_take c.rest
    obtain ⟨rest, taken, place, next⟩ := next_token h more
    have short := triviaLength_le false c.rest
    have tiles := ih ended
    rw [rest] at blanks
    rw [next] at tiles
    rw [← List.take_append_drop (triviaLength false c.rest) c.rest, rest]
    refine .token blanks more taken ?_ tiles
    rw [List.length_take, Nat.min_eq_left short]
    exact place

/-- No more tokens than units come before a fault. -/
theorem length_le (h : c.Run ts fault) : fault ≠ none → Unended ts ∧ ts.length ≤ c.rest.length := by
  induction h with
  | ended => exact fun h => absurd rfl h
  | fault => exact fun _ => ⟨unended_nil, Nat.zero_le _⟩
  | token h more _ ih =>
    intro faulty
    obtain ⟨unended, le⟩ := ih faulty
    have shorter := length_rest_next_lt h more
    exact ⟨unended_cons.2 ⟨more, unended⟩, by rw [List.length_cons]; omega⟩

end Cursor.Run

/-- **The tokens of a text tile it.**  They come from as many readings as there are, one reading after the other; and a
text that has no tokens is met with a fault after no more tokens than it has units. -/
theorem tokenize_tiles (source : Text) :
    match tokenize source with
    | .ok ts => Tiling source ts ∧ (Cursor.start source).pulls ts.length = ts.map .ok
    | .error fault => ∃ ts, (Cursor.start source).pulls (ts.length + 1) = ts.map .ok ++ [.error fault] ∧ Unended ts ∧
        ts.length ≤ source.length := by
  obtain ⟨ts, fault, run⟩ := (Cursor.start source).exists_run
  have pulls := run.pulls
  cases fault with
  | none =>
    rw [run.tokenize_ok]
    exact ⟨(run.tiles rfl).tiling, pulls.trans (List.append_nil _)⟩
  | some fault =>
    rw [run.tokenize_error]
    obtain ⟨unended, le⟩ := run.length_le (Option.some_ne_none fault)
    exact ⟨ts, pulls, unended, le⟩

end Cddl
