import Cddl.Proofs.Motion.Rule
import Cddl.Proofs.Token.Break
/-!
# Texts that are joined

A text that can be read and another one on the lines below it can be read as one: the rules are those of the first text
and those of the second, moved down (`parse_joined`).
-/
namespace Cddl

open CodeUnit (ofChar)

variable {m : Motion} {c : Cursor} {s t : Text} {ts : List Token} {d e : Document}

/-! ## Moving a text -/

namespace Motion

variable (m : Motion)

/-- The cursor as it is when the text before it is longer. -/
def cursor (c : Cursor) : Cursor := ⟨m.place c.place, c.rest⟩

theorem skip_cursor : ∀ (n : Nat) (c : Cursor), (m.cursor c).skip n = m.cursor (c.skip n)
  | 0, _ => rfl
  | n + 1, ⟨l, []⟩ => by
    have on := skip_cursor n ⟨l.shift 1, []⟩
    rw [Cursor.skip, ← on, cursor, cursor, Cursor.skip, m.shift_place]
  | n + 1, ⟨l, u :: r⟩ => by
    have on := skip_cursor n ⟨l.advance u, r⟩
    rw [Cursor.skip, ← on, cursor, cursor, Cursor.skip, m.advance_place]

theorem next_cursor {t : Token} (h : c.next.1 = .ok t) : (m.cursor c).next = (.ok (m.token t), m.cursor c.next.2) := by
  have trivia : (m.cursor c).skipTrivia = m.cursor c.skipTrivia := m.skip_cursor _ c
  unfold Cursor.next at h ⊢
  rw [trivia]
  generalize c.skipTrivia = c at *
  obtain ⟨l, _ | ⟨u, r⟩⟩ := c
  · cases h
    rfl
  · unfold Cursor.readHere at h ⊢
    simp only [cursor] at h ⊢
    split at h
    · rename_i body n scanned
      cases h
      have on := m.skip_cursor (n + 1) ⟨l, u :: r⟩
      simp only [cursor] at on
      rw [on]
      rfl
    · cases h

end Motion

theorem Cursor.Run.moved (m : Motion) {fault : Option LexFault} (h : c.Run ts fault) (whole : fault = none) :
    (m.cursor c).Run (ts.map m.token) none := by
  induction h with
  | fault => cases whole
  | ended h ends => exact .ended (congrArg Prod.fst (m.next_cursor h)) ends
  | token h more _ ih =>
    have read := m.next_cursor h
    refine .token (congrArg Prod.fst read) more ?_
    rw [read]
    exact ih whole

/-! ## Lines -/

theorem Location.line_past (l : Location) (s : Text) : (l.past s).line = l.line + s.count (ofChar '\n') := by
  induction s generalizing l with
  | nil => exact (Int.add_zero _).symm
  | cons u s ih =>
    have rest : (l.past (u :: s)).line = (l.advance u).line + s.count (ofChar '\n') := ih (l.advance u)
    rw [rest, List.count_cons, Location.advance]
    by_cases feed : u = ofChar '\n'
    · simp only [feed, if_true, beq_self_eq_true]
      omega
    · simp [feed, Location.shift]

/-- The motion from the start of a text to the line below another text. -/
def Motion.below (s : Text) : Motion := ⟨1 + s.count (ofChar '\n'), s.length + 1⟩

theorem Motion.place_start (s : Text) :
    (Motion.below s).place .start = (Location.past .start s).advance (ofChar '\n') := by
  have line := Location.line_past .start s
  have offset := Layout.offset_past .start s
  rw [Location.advance, if_pos rfl, line, offset]
  simp only [place, below, Location.start, Location.mk.injEq, true_and]
  omega

/-! ## Reading and spelling -/

namespace Cursor.Run

theorem exists_end {fault : Option LexFault} (h : c.Run ts fault) (whole : fault = none) :
    ∃ us l, ts = us ++ [.endAt l] := by
  induction h with
  | fault => cases whole
  | @ended c t h ends =>
    obtain ⟨_, own, _⟩ := next_end h ends
    exact ⟨[], t.location, by rw [← own]; rfl⟩
  | @token c t ts fault h more _ ih =>
    obtain ⟨us, l, rfl⟩ := ih whole
    exact ⟨t :: us, l, rfl⟩

/-- A text is read to the rules that the tokens of its run spell. -/
theorem exists_parse {rs : List Rule} {l : Location} (run : (Cursor.start s).Run (ts ++ [.endAt l]) none)
    (spelled : SpellsRules rs ts [.endAt l, .endAt l]) : ∃ d, parse s = .ok d ∧ d.rules = rs := by
  refine exists_parse_of_sealed ?_ spelled
  rw [Feed.ofText, (run.ofCursor_eq rfl).2, Feed.ofTokens, Feed.sealed]
  simp [Token.endAt]

/-- The tokens of a text that can be read spell its rules, and behind them the text ends. -/
theorem ended_of_parse (h : parse s = .ok d) : ∃ ts l, (Cursor.start s).Run (ts ++ [.endAt l]) none ∧
    SpellsRules d.rules ts [.endAt l, .endAt l] := by
  obtain ⟨w, v, ts, hw, walk, ends, _, spelled⟩ := parseFeed_ok (Feed.ends_ofCursor _) (parse_eq_ok_iff.1 h)
  have rules := spelled _ (List.cons_ne_nil _ _) v.shows_pair
  have shown : w.Shows (ts ++ [v.current] ++ [v.upcoming]) := by
    rw [List.append_assoc]
    exact walk.shows v.shows_pair
  have run : (Cursor.start s).Run (ts ++ [v.current]) none :=
    .of_items rules.unended ends fun i t hi => (Window.item_ofFeed hw i).symm.trans (shown.left i t hi)
  obtain ⟨us, l, same⟩ := run.exists_end rfl
  obtain ⟨rfl, last⟩ := List.append_inj' same rfl
  rw [ends_of_shows hw walk ends] at rules
  rw [(List.cons.inj last).1] at run rules
  exact ⟨ts, l, run, rules⟩

theorem of_parse (h : parse s = .ok d) : ∃ ts l, (Cursor.start s).Run (ts ++ [.endAt l]) none ∧
    ∃ e, SpellsRules d.rules ts [.endAt l, e] := by
  obtain ⟨ts, l, run, rules⟩ := ended_of_parse h
  exact ⟨ts, l, run, _, rules⟩

end Cursor.Run

/-- **A text and another one on the lines below it are read together as they are read one by one**, the rules of the
other moved down past the text and the line break. -/
theorem parse_joined (h : parse s = .ok d) (h' : parse t = .ok e) : ∃ j, parse (s ++ ofChar '\n' :: t) = .ok j ∧
    j.rules = d.rules ++ e.rules.map (·.respan (Motion.below s).spans) := by
  obtain ⟨ts, l, run, x, rules⟩ := Cursor.Run.of_parse h
  obtain ⟨us, l', run', x', rules'⟩ := Cursor.Run.of_parse h'
  have moved := run'.moved (Motion.below s) rfl
  rw [Motion.cursor, Cursor.start, Motion.place_start] at moved
  have joined := run.join rfl moved
  rw [List.dropLast_concat, List.map_append, ← List.append_assoc] at joined
  exact joined.exists_parse (rules.join rfl rules' rfl rfl)

/-- A comment up to the line break, and a bound that is joined to an asterisk. -/
theorem parse_joined_sample : ∃ d e j, parse "a = int ; one" = .ok d ∧ parse "b = [*2 a]" = .ok e ∧
    parse (Text.ofString "a = int ; one" ++ ofChar '\n' :: Text.ofString "b = [*2 a]") = .ok j ∧
      j.rules = d.rules ++ e.rules.map (·.respan (Motion.below "a = int ; one").spans) := by
  have read : ∃ d, parse "a = int ; one" = .ok d ∧ decide (d.rules.length = 1) = true :=
    exists_parse (n := 4) (p := fun d => decide (d.rules.length = 1)) (by decide +kernel)
  have read' : ∃ d, parse "b = [*2 a]" = .ok d ∧ decide (d.rules.length = 1) = true :=
    exists_parse (n := 8) (p := fun d => decide (d.rules.length = 1)) (by decide +kernel)
  obtain ⟨d, h, _⟩ := read
  obtain ⟨e, h', _⟩ := read'
  obtain ⟨j, joined, rules⟩ := parse_joined h h'
  exact ⟨d, e, j, h, h', joined, rules⟩

end Cddl
