import Cddl.Token.Cursor
import Mathlib.Logic.Function.Iterate
/-!
# The counters of a cursor

Between any two readings, and wherever a reading puts a token or a fault, the line and the column are those that
counting up to the offset gives (`counters_agree`).  A reading only ever moves a cursor by `Cursor.skip`, so one step of
that is all there is to be proved.  A text that ends in a backslash is stepped past, and the columns go on counting
there.
-/
namespace Cddl

open CodeUnit (ofChar)

variable {source : Text} {l : Location} {u : CodeUnit} {c : Cursor}

/-! ## Counting -/

/-- The line of an offset starts behind the last line feed before it, or with the text. -/
structure LineStart (source : Text) (offset start : Nat) : Prop where
  le : start ≤ offset
  behind : start = 0 ∨ source[start - 1]? = some (ofChar '\n')
  unbroken : ∀ i, start ≤ i → i < offset → source[i]? ≠ some (ofChar '\n')

/-- The line and the column of a place are those that counting up to its offset gives; it may lie behind the text. -/
structure Location.Counted (source : Text) (l : Location) : Prop where
  offset : 0 ≤ l.offset
  line : l.line = 1 + (source.take l.offset.toNat).count (ofChar '\n')
  column : ∃ start, LineStart source l.offset.toNat start ∧ l.column = 1 + l.offset - start

namespace Location

theorem counted_start (source : Text) : Location.start.Counted source where
  offset := Int.le_refl 0
  line := rfl
  column := ⟨0, ⟨Nat.le_refl 0, .inl rfl, fun i _ less => absurd less (Nat.not_lt_zero i)⟩, rfl⟩

theorem toNat_succ (h : 0 ≤ l.offset) : (l.offset + 1).toNat = l.offset.toNat + 1 := by omega

namespace Counted

/-- A step within a line, over a unit of it or behind the text. -/
theorem shift (h : l.Counted source) (dark : source[l.offset.toNat]? ≠ some (ofChar '\n')) :
    (l.shift 1).Counted source := by
  obtain ⟨start, begins, column⟩ := h.column
  have next : (l.shift 1).offset.toNat = l.offset.toNat + 1 := toNat_succ h.offset
  refine ⟨Int.le_add_one h.offset, ?_, start, ⟨?_, begins.behind, fun i from_ before => ?_⟩, ?_⟩
  · rw [next]
    cases unit : source[l.offset.toNat]? with
    | none =>
      have all : source.length ≤ l.offset.toNat := List.getElem?_eq_none_iff.1 unit
      rw [List.take_of_length_le (Nat.le_succ_of_le all), ← List.take_of_length_le all]
      exact h.line
    | some u =>
      have other : ¬ (u == ofChar '\n') = true := fun feed => dark (unit.trans (congrArg some (beq_iff_eq.1 feed)))
      rw [List.take_add_one, unit, Option.toList_some, List.count_append, List.count_singleton, if_neg other]
      exact h.line
  · rw [next]
    exact Nat.le_succ_of_le begins.le
  · rw [next] at before
    rcases Nat.lt_succ_iff_lt_or_eq.1 before with earlier | rfl
    · exact begins.unbroken i from_ earlier
    · exact dark
  · show l.column + 1 = 1 + (l.offset + 1) - start
    omega

/-- A step over a line feed. -/
theorem feed (h : l.Counted source) (is : source[l.offset.toNat]? = some (ofChar '\n')) :
    (l.advance (ofChar '\n')).Counted source := by
  have next : (l.advance (ofChar '\n')).offset.toNat = l.offset.toNat + 1 := toNat_succ h.offset
  refine ⟨Int.le_add_one h.offset, ?_, l.offset.toNat + 1,
    ⟨Nat.le_of_eq next.symm, .inr is, fun i from_ before => ?_⟩, ?_⟩
  · rw [next, List.take_add_one, is, Option.toList_some, List.count_append, List.count_singleton_self]
    show l.line + 1 = 1 + ((source.take l.offset.toNat).count (ofChar '\n') + 1 : Nat)
    rw [h.line]
    omega
  · omega
  · show (1 : Int) = 1 + (l.offset + 1) - (l.offset.toNat + 1 : Nat)
    have := h.offset
    omega

theorem advance (h : l.Counted source) (is : source[l.offset.toNat]? = some u) : (l.advance u).Counted source := by
  by_cases break_ : u = ofChar '\n'
  · subst break_
    exact h.feed is
  · rw [Location.advance, if_neg break_]
    exact h.shift fun feed => break_ (Option.some.inj (is.symm.trans feed))

end Counted
end Location

/-! ## Reading -/

namespace Cursor

/-- A cursor has before it what its text holds from its offset on, and its counters agree. -/
structure Tracks (source : Text) (c : Cursor) : Prop where
  counted : c.place.Counted source
  rest : c.rest = source.drop c.place.offset.toNat

theorem tracks_start (source : Text) : (Cursor.start source).Tracks source := ⟨Location.counted_start source, rfl⟩

namespace Tracks

/-- **Every step that a cursor takes is counted once.** -/
theorem skip : ∀ {n : Nat} {c : Cursor}, c.Tracks source → (c.skip n).Tracks source
  | 0, _, h => h
  | n + 1, ⟨l, []⟩, h => by
    have all : source.length ≤ l.offset.toNat := List.drop_eq_nil_iff.1 h.rest.symm
    have further : (⟨l.shift 1, []⟩ : Cursor).Tracks source := by
      refine ⟨h.counted.shift ?_, ?_⟩
      · rw [List.getElem?_eq_none all]
        exact Option.some_ne_none _ ∘ Eq.symm
      · have next : (l.shift 1).offset.toNat = l.offset.toNat + 1 := Location.toNat_succ h.counted.offset
        rw [next, List.drop_eq_nil_of_le (Nat.le_succ_of_le all)]
    exact further.skip
  | n + 1, ⟨l, u :: r⟩, h => by
    have drop : source.drop l.offset.toNat = u :: r := h.rest.symm
    have is : source[l.offset.toNat]? = some u := by rw [← List.head?_drop, drop, List.head?_cons]
    have further : (⟨l.advance u, r⟩ : Cursor).Tracks source := by
      refine ⟨h.counted.advance is, ?_⟩
      have next : (l.advance u).offset.toNat = l.offset.toNat + 1 := by
        rw [Location.advance]
        split <;> exact Location.toNat_succ h.counted.offset
      rw [next, ← List.drop_drop, drop, List.drop_one, List.tail_cons]
    exact further.skip

/-- A reading, whatever comes of it, puts its token or fault in a place that agrees, and leaves a cursor that does. -/
theorem readHere (h : c.Tracks source) : c.readHere.2.Tracks source ∧
    match c.readHere.1 with
    | .ok t => t.location.Counted source
    | .error f => f.location.Counted source := by
  obtain ⟨l, _ | ⟨u, r⟩⟩ := c
  · exact ⟨h, h.counted⟩
  · unfold Cursor.readHere
    simp only []
    cases scan u r with
    | token body more => exact ⟨h.skip, h.counted⟩
    | fault cause used =>
      refine ⟨h.skip, ?_⟩
      simp only []
      split
      · exact h.skip.counted
      · exact h.counted

theorem next (h : c.Tracks source) : c.next.2.Tracks source := h.skip.readHere.1

end Tracks
end Cursor

/-- **However often a text is read on from where the last reading has left off, be it at a fault, the counters agree**,
and so does the place of what is read then. -/
theorem counters_agree (source : Text) (n : Nat) :
    let c := (fun c : Cursor => c.next.2)^[n] (.start source)
    c.Tracks source ∧ match c.next.1 with
      | .ok t => t.location.Counted source
      | .error f => f.location.Counted source := by
  intro c
  have tracks : c.Tracks source := by
    unfold c
    induction n with
    | zero => exact Cursor.tracks_start source
    | succ n ih =>
      rw [Function.iterate_succ_apply']
      exact ih.next
  exact ⟨tracks, tracks.skip.readHere.2⟩

/-- The end of a text with an open literal is stepped past at its last backslash. -/
example : (Cursor.start "\"\\").next.2.place = ⟨1, 4, 3⟩ := by decide

end Cddl
