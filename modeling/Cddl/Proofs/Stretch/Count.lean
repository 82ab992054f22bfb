import Cddl.Proofs.Stretch.Document
/-!
# Lines and columns as they are counted in a text

The place of a token is where a scan stands before it, so its line and column are those that counting gives
(`Cursor.Run.placed`).  The end of a token is put in the line of its start.  That agrees with counting for every token
without a line feed, and every range is one of them; but a text and a byte string may go on over several lines
(`locations_agree`).
-/
namespace Cddl

open CodeUnit (ofChar)

variable {pre l : Location} {t : Token} {ts after : List Token} {n : Node} {s before rest source : Text} {d : Document}

/-! ## Counting -/

/-- What a text has behind its last line feed. -/
def lastLine (s : Text) : Text := (s.reverse.takeWhile fun u => u ≠ ofChar '\n').reverse

/-- A place in a text has the line and the column that counting up to it gives. -/
structure Location.Agrees (source : Text) (l : Location) : Prop where
  inside : 0 ≤ l.offset ∧ l.offset ≤ source.length
  line : l.line = 1 + (source.take l.offset.toNat).count (ofChar '\n')
  column : l.column = 1 + (lastLine (source.take l.offset.toNat)).length

namespace Location

theorem past_concat (l : Location) (s : Text) (u : CodeUnit) : l.past (s ++ [u]) = (l.past s).advance u :=
  Layout.past_append l s [u]

theorem column_past (s : Text) : (past .start s).column = 1 + (lastLine s).length := by
  induction s using List.reverseRecOn with
  | nil => rfl
  | append_singleton s u ih =>
    unfold lastLine at ih ⊢
    rw [past_concat, advance, List.reverse_append, List.reverse_singleton, List.singleton_append, List.takeWhile_cons]
    by_cases feed : u = ofChar '\n'
    · rw [if_pos feed, if_neg (by simp [feed])]
      rfl
    · rw [if_neg feed, if_pos (by simp [feed])]
      simp only [shift, List.length_reverse, List.length_cons] at ih ⊢
      omega

/-- Within a line the columns go on with the units. -/
theorem past_of_line (l : Location) (h : ofChar '\n' ∉ s) : l.past s = l.shift s.length := by
  induction s generalizing l with
  | nil => simp [past, shift]
  | cons u s ih =>
    rw [List.mem_cons, not_or] at h
    have step : l.past (u :: s) = (l.advance u).past s := rfl
    rw [step, ih _ h.2, advance, if_neg (Ne.symm h.1)]
    simp only [shift, List.length_cons, Location.mk.injEq, true_and]
    omega

/-- The place behind the first units of a text agrees with the text. -/
theorem agrees_past (split : source = before ++ rest) : (past .start before).Agrees source := by
  have offset : (past .start before).offset = before.length := (Layout.offset_past _ _).trans (Int.zero_add _)
  have taken : source.take (past .start before).offset.toNat = before := by
    rw [offset, Int.toNat_natCast, split, List.take_left]
  refine ⟨?_, ?_, ?_⟩
  · rw [offset, split, List.length_append]
    omega
  · rw [taken]
    exact line_past .start before
  · rw [taken]
    exact column_past before

end Location

/-! ## The places of tokens -/

/-- A token stands in a text where a scan of the text comes to it. -/
def Token.PlacedIn (t : Token) (source : Text) : Prop :=
  ∃ before rest, source = before ++ (t.text ++ rest) ∧ t.location = Location.past .start before

namespace Token.PlacedIn

theorem agrees (h : t.PlacedIn source) : t.location.Agrees source := by
  obtain ⟨before, rest, split, place⟩ := h
  rw [place]
  exact Location.agrees_past split

/-- Every place in the text of a token of one line agrees. -/
theorem agrees_shift (h : t.PlacedIn source) (line : ofChar '\n' ∉ t.text) {i : Nat} (inside : i ≤ t.text.length) :
    (t.location.shift i).Agrees source := by
  obtain ⟨before, rest, split, place⟩ := h
  have part : ofChar '\n' ∉ t.text.take i := fun mem => line (List.mem_of_mem_take mem)
  have shifted := Location.past_of_line t.location part
  rw [List.length_take, Nat.min_eq_left inside] at shifted
  rw [← shifted, place, ← Layout.past_append]
  apply Location.agrees_past
  rw [split, List.append_assoc, ← List.append_assoc (t.text.take i), List.take_append_drop]

end Token.PlacedIn

namespace Cursor

variable {c : Cursor} {fault : Option LexFault}

/-- Where a token stands, and where reading goes on behind it. -/
theorem next_place (h : c.next.1 = .ok t) : ∃ gap rest, c.rest = gap ++ (t.text ++ rest) ∧
    t.location = c.place.past gap ∧ c.next.2 = ⟨(c.place.past gap).past t.text, rest⟩ := by
  obtain ⟨gap, rest, split, location, next⟩ := next_anywhere h
  exact ⟨gap, rest, split, location, congrArg Prod.snd (next c.place)⟩

/-- **Every token of a run stands where the scan comes to it.** -/
theorem Run.placed (h : c.Run ts fault) : ∀ before : Text, c.place = Location.past .start before →
    ∀ t ∈ ts, t.PlacedIn (before ++ c.rest) := by
  induction h with
  | @ended c t h _ =>
    intro before place u hu
    obtain ⟨gap, rest, split, location, _⟩ := next_place h
    rw [List.mem_singleton.1 hu]
    refine ⟨before ++ gap, rest, ?_, ?_⟩
    · rw [split, List.append_assoc]
    · rw [location, place, Layout.past_append]
  | fault => exact fun _ _ _ ht => absurd ht List.not_mem_nil
  | @token c t ts fault h _ _ ih =>
    intro before place u hu
    obtain ⟨gap, rest, split, location, next⟩ := next_place h
    rcases List.mem_cons.1 hu with rfl | hu
    · refine ⟨before ++ gap, rest, ?_, ?_⟩
      · rw [split, List.append_assoc]
      · rw [location, place, Layout.past_append]
    · have later := ih (before ++ gap ++ t.text) ?_ u hu
      · rw [next] at later
        rw [split]
        simpa using later
      · rw [next, place, Layout.past_append, Layout.past_append]

end Cursor

/-- A range is written in one line. -/
theorem not_mem_of_range {lower upper : Literal} {inclusive : Bool} (read : t.Read)
    (body : t.body = .range lower upper inclusive) : ofChar '\n' ∉ t.text := by
  obtain ⟨u, r, more, scanned, text⟩ := read.exists_scan (Token.not_is_of_range body)
  rw [body] at scanned
  obtain ⟨starts, number⟩ := scan_range scanned
  rw [text]
  intro feed
  -- the number that stands before the line feed would be the whole token
  obtain ⟨first, behind, split⟩ := List.append_of_mem feed
  have whole : u :: r = first ++ ofChar '\n' :: (behind ++ r.drop more) := by
    rw [← List.cons_append, ← List.append_assoc, ← split, List.cons_append, List.take_append_drop]
  have space : ofChar '\n' ∈ breaks := by decide
  rw [whole, Numeral.startsHere_break space] at starts
  rw [whole, Scan.number_break space starts] at number
  have short := Scan.number_extent starts number
  have inside := scan_extent scanned
  have length := congrArg List.length split
  simp only [List.length_cons, List.length_take, List.length_append] at length
  omega

/-! ## The places of stretches -/

/-- The end of a token that goes on over several lines. -/
def EndsBroken (ts : List Token) (l : Location) : Prop := ∃ t ∈ ts, ofChar '\n' ∈ t.text ∧ l = t.stop

theorem stopAfter_eq (pre : Location) (ts : List Token) :
    stopAfter pre ts = pre ∨ ∃ t ∈ ts, stopAfter pre ts = t.stop := by
  induction ts generalizing pre with
  | nil => exact .inl rfl
  | cons t ts ih =>
    rcases ih t.stop with same | ⟨u, hu, same⟩
    · exact .inr ⟨t, List.mem_cons_self, same⟩
    · exact .inr ⟨u, List.mem_cons_of_mem _ hu, same⟩

theorem Token.PlacedIn.stop (h : t.PlacedIn source) (mem : t ∈ ts) : t.stop.Agrees source ∨ EndsBroken ts t.stop := by
  by_cases broken : ofChar '\n' ∈ t.text
  · exact .inr ⟨t, mem, broken, rfl⟩
  · exact .inl (h.agrees_shift broken (Nat.le_refl _))

section

variable {last : Token} {span : Span}

/-- The stretch over some tokens starts at a token, and it ends at a token or at the given place. -/
theorem over_agrees (placed : ∀ t ∈ ts ++ [last], t.PlacedIn source) (hpre : pre.Agrees source)
    {lead taken rest : List Token} (split : ts = lead ++ (taken ++ rest)) :
    (Span.over (stopAfter pre lead) taken (rest ++ last :: after)).start.Agrees source ∧
      ((Span.over (stopAfter pre lead) taken (rest ++ last :: after)).stop.Agrees source ∨
        EndsBroken ts (Span.over (stopAfter pre lead) taken (rest ++ last :: after)).stop) := by
  constructor
  · obtain ⟨t, more, heads⟩ := List.exists_cons_of_ne_nil
      (List.append_ne_nil_of_right_ne_nil (taken ++ rest) (List.cons_ne_nil last []))
    have mem : t ∈ ts ++ [last] := by
      rw [split, List.append_assoc, heads]
      exact List.mem_append_right _ List.mem_cons_self
    have first : taken ++ (rest ++ last :: after) = t :: (more ++ after) := by
      rw [← List.cons_append, ← heads]
      simp
    rw [Span.over, first]
    exact (placed t mem).agrees
  · change (stopAfter (stopAfter pre lead) taken).Agrees source ∨ EndsBroken ts (stopAfter (stopAfter pre lead) taken)
    rw [← stopAfter_append]
    rcases stopAfter_eq pre (lead ++ taken) with same | ⟨t, ht, same⟩
    · rw [same]
      exact .inl hpre
    · have mem : t ∈ ts := by
        rw [split, ← List.append_assoc]
        exact List.mem_append_left _ ht
      rw [same]
      exact (placed t (List.mem_append_left _ mem)).stop mem

theorem Drawn.agrees (h : Drawn pre ts (last :: after) n) (placed : ∀ t ∈ ts ++ [last], t.PlacedIn source)
    (read : ∀ t ∈ ts, t.Read) (hpre : pre.Agrees source) (hs : n.span = some span) :
    span.start.Agrees source ∧ (span.stop.Agrees source ∨ EndsBroken ts span.stop) := by
  cases h with
  | bare none =>
    rw [none] at hs
    cases hs
  | across lead taken rest split stretch _ =>
    rw [stretch] at hs
    cases hs
    exact over_agrees placed hpre split
  | part t mem body i j part _ inside =>
    rw [part] at hs
    cases hs
    obtain ⟨less, within⟩ := inside (read t mem)
    have line := not_mem_of_range (read t mem) body
    have place := placed t (List.mem_append_left _ mem)
    exact ⟨place.agrees_shift line (Nat.le_trans less within), .inl (place.agrees_shift line within)⟩

end

/-- **In a document that is read from a text every stretch starts in the line and the column that counting gives, and so
it ends, unless it ends with a token that goes on over several lines.** -/
theorem locations_agree (h : parse source = .ok d) : ∃ ts, tokenize source = .ok ts ∧
    ∀ n above, (n, above) ∈ d.places → ∀ s, n.span = some s →
      s.start.Agrees source ∧ (s.stop.Agrees source ∨ EndsBroken ts s.stop) := by
  obtain ⟨pre, ts, l, e, run, laid, first, whole, drawn⟩ := drawn_of_parse h
  have placed : ∀ t ∈ ts ++ [.endAt l], t.PlacedIn source := run.placed [] rfl
  have read : ∀ t ∈ ts, t.Read := fun t ht => laid.2 t (List.mem_append_left _ ht)
  have hpre : pre.Agrees source := by
    obtain ⟨t, ht, rfl⟩ : ∃ t ∈ ts ++ [Token.endAt l], t.location = pre := by
      cases ts with
      | nil => exact ⟨_, List.mem_cons_self, Option.some.inj first⟩
      | cons t ts => exact ⟨t, List.mem_cons_self, Option.some.inj first⟩
    exact (placed t ht).agrees
  have wider {l : Location} (h : EndsBroken ts l) {last : Token} : EndsBroken (ts ++ [last]) l := by
    obtain ⟨t, ht, rest⟩ := h
    exact ⟨t, List.mem_append_left _ ht, rest⟩
  refine ⟨ts ++ [.endAt l], run.tokenize_ok, fun n above place s span => ?_⟩
  have agrees : s.start.Agrees source ∧ (s.stop.Agrees source ∨ EndsBroken ts s.stop) := by
    rcases Document.mem_throughout place with rfl | mem
    · change d.span = some s at span
      rw [whole] at span
      cases span
      exact over_agrees placed hpre (show ts = [] ++ (ts ++ []) from (List.append_nil ts).symm)
    · exact (drawn n mem).agrees placed read hpre span
  exact ⟨agrees.1, agrees.2.imp_right fun broken => wider broken⟩

/-- A byte string in two lines, which counting puts the end of in the second. -/
theorem locations_agree_sample : ∃ d, parse "a = h'01\n02'" = .ok d ∧ ∃ ts, tokenize "a = h'01\n02'" = .ok ts ∧
    ∀ n above, (n, above) ∈ d.places → ∀ s, n.span = some s →
      s.start.Agrees "a = h'01\n02'" ∧ (s.stop.Agrees "a = h'01\n02'" ∨ EndsBroken ts s.stop) := by
  have read : ∃ d, parse "a = h'01\n02'" = .ok d := exists_parse_of_within (n := 4) (by decide +kernel)
  obtain ⟨d, h⟩ := read
  exact ⟨d, h, locations_agree h⟩

/-- The end of a byte string in two lines is given as a place in the first of them. -/
theorem end_in_first_line : ∃ d s, parse "a = h'01\n02'" = .ok d ∧ d.span = some s ∧
    ¬ s.stop.Agrees "a = h'01\n02'" := by
  have read : ∃ d, parse "a = h'01\n02'" = .ok d ∧ decide (d.span.map Span.stop = some ⟨1, 13, 12⟩) = true :=
    exists_parse (n := 4) (p := fun d => decide (d.span.map Span.stop = some ⟨1, 13, 12⟩)) (by decide +kernel)
  obtain ⟨d, h, stop⟩ := read
  obtain ⟨s, span, stop⟩ := Option.map_eq_some_iff.1 (of_decide_eq_true stop)
  refine ⟨d, s, h, span, fun agrees => ?_⟩
  have line := agrees.line
  rw [stop] at line
  exact absurd line (by decide)

end Cddl
