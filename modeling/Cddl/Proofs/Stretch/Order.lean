import Cddl.Proofs.Stretch.Document
/-!
# Which stretches are turned around

A stretch over tokens ends behind its start.  A hollow node has no token, and its stretch goes from the next token back
to the end of the token before (`ordered_of_parse`); with a blank in between it ends before it starts.
-/
namespace Cddl

variable {pre : Location} {ts after : List Token} {n : Node} {ns : List Node} {s : Span} {source : Text} {d : Document}

/-- A stretch that ends before it starts has no place for a token, and any other one ends behind its start. -/
def Span.Ordered (s : Span) (hollow : Bool) : Prop :=
  if hollow then s.stop.offset ≤ s.start.offset else s.start.offset ≤ s.stop.offset

/-- The stretch over some tokens ends behind its start. -/
theorem Follows.over (h : Follows pre (ts ++ after)) (hne : after ≠ []) :
    (Span.over pre ts after).Ordered ts.isEmpty := by
  cases ts with
  | nil =>
    have start : (Span.over pre [] after).start.offset = startOf after := offset_over pre [] after
    have first : Follows pre ([] ++ after) := h
    exact Int.le_trans (first.stop_le hne) (Int.le_of_eq start.symm)
  | cons t ts =>
    have rest := h.tail (List.append_ne_nil_of_right_ne_nil ts hne)
    exact Int.le_trans t.location_le_stop (rest.le_stop hne)

namespace Drawn

theorem ordered (h : Drawn pre ts after n) (follows : Follows pre (ts ++ after)) (hne : after ≠ [])
    (span : n.span = some s) : s.Ordered n.hollow := by
  cases h with
  | bare none =>
    rw [none] at span
    cases span
  | across lead taken rest split stretch full =>
    rw [stretch] at span
    cases span
    rw [split, List.append_assoc, List.append_assoc] at follows
    have some : rest ++ after ≠ [] := List.append_ne_nil_of_right_ne_nil _ hne
    rw [full]
    exact (follows.rest (List.append_ne_nil_of_right_ne_nil _ some)).over some
  | part t mem _ i j part full inside =>
    rw [part] at span
    cases span
    obtain ⟨less, _⟩ := inside (follows.laid.2 t (List.mem_append_left _ mem))
    rw [full]
    change t.location.offset + i ≤ t.location.offset + j
    omega

end Drawn

/-- **In a document that is read from a text only the stretches of hollow nodes are turned around.** -/
theorem ordered_of_parse (h : parse source = .ok d) :
    ∀ n above, (n, above) ∈ d.places → ∀ s, n.span = some s → s.Ordered n.hollow := by
  obtain ⟨pre, ts, l, e, _, laid, first, whole, drawn⟩ := drawn_of_parse h
  have start : pre.offset = startOf (ts ++ [.endAt l, e]) := by
    have place := offset_over pre ts [.endAt l, e]
    rw [Span.over, first] at place
    exact place
  have follows : Follows pre (ts ++ [.endAt l, e]) := ⟨laid, Int.le_of_eq start⟩
  intro n above place s span
  rcases Document.mem_throughout place with rfl | mem
  · change d.span = some s at span
    rw [whole] at span
    cases span
    change (Span.over pre ts [.endAt l, e]).start.offset ≤ _
    rw [offset_over, ← start]
    exact follows.le_stop (List.cons_ne_nil _ _)
  · exact (drawn n mem).ordered follows (List.cons_ne_nil _ _) span

/-- A group choice without entries before another one. -/
theorem ordered_of_parse_sample : ∃ d, parse "a = [// int]" = .ok d ∧
    ∀ n above, (n, above) ∈ d.places → ∀ s, n.span = some s → s.Ordered n.hollow := by
  have read : ∃ d, parse "a = [// int]" = .ok d := exists_parse_of_within (n := 8) (by decide +kernel)
  obtain ⟨d, h⟩ := read
  exact ⟨d, h, ordered_of_parse h⟩

/-- Whether a stretch so many steps below a document ends before it starts. -/
def Document.turnsAround (k : Nat) (d : Document) : Bool :=
  (d.level k).any fun n => n.span.any fun s => decide (s.stop.offset < s.start.offset)

/-- The stretch of a group choice without entries that ends before it starts. -/
theorem turned_around : ∃ d n above s, parse "a = [ // int ]" = .ok d ∧ (n, above) ∈ d.places ∧ n.span = some s ∧
    s.stop.offset < s.start.offset := by
  obtain ⟨d, h, turned⟩ : ∃ d, parse "a = [ // int ]" = .ok d ∧ d.turnsAround 8 = true :=
    exists_parse (n := 8) (p := Document.turnsAround 8) (by decide +kernel)
  obtain ⟨n, mem, turned⟩ := List.any_eq_true.1 turned
  obtain ⟨s, hs, turned⟩ := (Option.any_eq_true ..).1 turned
  obtain ⟨above, place⟩ := Document.mem_places_of_level mem
  exact ⟨d, n, above, s, h, place, hs, of_decide_eq_true turned⟩

end Cddl
