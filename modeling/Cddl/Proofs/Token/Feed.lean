import Cddl.Proofs.Reading
import Cddl.Proofs.Token.Scan
/-!
# The tokens of a text in their order

Each token is what `scan` makes of the text where it stands, and none begins before the one before it has ended.
-/
namespace Cddl

/-- What a text can be read to: the end of input, or a token that has been scanned. -/
inductive Token.Read : Token → Prop
  | ended (l : Location) : Read (.endAt l)
  | scanned {u : CodeUnit} {r : Text} {body : Token.Body} {more : Nat} (l : Location)
      (h : scan u r = .token body more) : Read ⟨body, u :: r.take more, l⟩

/-- The end of input takes no room. -/
theorem Token.Read.stop_of_end {t : Token} (h : t.Read) (ends : t.is .endOfInput = true) : t.stop = t.location := by
  cases h with
  | ended l => simp [Token.stop, Token.endAt, Location.shift]
  | scanned l scanned =>
    rw [Token.is_iff] at ends
    cases ends
    exact absurd scanned scan_ne_end

theorem Token.Read.exists_scan {t : Token} (h : t.Read) (more : t.is .endOfInput = false) :
    ∃ u r n, scan u r = .token t.body n ∧ t.text = u :: r.take n := by
  cases h with
  | ended l => cases more
  | scanned l scanned => exact ⟨_, _, _, scanned, rfl⟩

theorem Location.offset_advance (l : Location) (u : CodeUnit) : (l.advance u).offset = l.offset + 1 := by
  unfold advance
  split <;> rfl

namespace Cursor

variable {c : Cursor} {t : Token}

theorem offset_skip : ∀ (n : Nat) (c : Cursor), (c.skip n).place.offset = c.place.offset + n
  | 0, c => by rw [skip, Int.natCast_zero, Int.add_zero]
  | n + 1, ⟨place, []⟩ => by
    rw [skip, offset_skip n]
    simp only [Location.shift]
    omega
  | n + 1, ⟨place, u :: r⟩ => by
    rw [skip, offset_skip n, Location.offset_advance]
    exact (Int.add_assoc ..).trans (by rw [Int.add_comm 1]; rfl)

theorem le_offset_skipTrivia (c : Cursor) : c.place.offset ≤ c.skipTrivia.place.offset := by
  rw [skipTrivia, offset_skip]
  omega

/-- A token that is read begins where the cursor stands, at the earliest, and ends before the cursor goes on. -/
theorem next_ok (h : c.next.1 = .ok t) :
    t.Read ∧ c.place.offset ≤ t.location.offset ∧ t.stop.offset ≤ c.next.2.place.offset := by
  have trivia := le_offset_skipTrivia c
  unfold next readHere at h ⊢
  generalize c.skipTrivia = d at *
  obtain ⟨place, _ | ⟨u, r⟩⟩ := d
  · cases h
    exact ⟨.ended _, trivia, Int.le_of_eq (by rw [Token.stop]; exact Int.add_zero _)⟩
  · simp only [] at h ⊢
    split at h
    · rename_i body more hs
      cases h
      refine ⟨.scanned _ hs, trivia, ?_⟩
      rw [offset_skip]
      simp only [Token.stop, Location.shift, List.length_cons, List.length_take]
      omega
    · cases h

theorem le_offset_next (c : Cursor) : c.place.offset ≤ c.next.2.place.offset := by
  have trivia := le_offset_skipTrivia c
  unfold next readHere
  generalize c.skipTrivia = d at *
  obtain ⟨place, _ | ⟨u, r⟩⟩ := d
  · exact trivia
  · simp only []
    split
    · rw [offset_skip]
      simp only [] at trivia ⊢
      omega
    · simp only [offset_skip] at trivia ⊢
      omega

end Cursor

namespace Feed

variable {f : Feed} {c : Cursor} {t u : Token}

theorem item_prepend_succ (x : Except LexFault Token) (f : Feed) (n : Nat) : (f.prepend x).item (n + 1) = f.item n := by
  unfold item prepend
  rw [List.getElem?_cons_succ]

theorem item_constant (x : Except LexFault Token) (n : Nat) : (constant x).item n = x := by
  unfold item constant
  cases n <;> rfl

theorem ofCursor_token (h : c.next.1 = .ok t) (more : t.is .endOfInput = false) :
    ofCursor c = (ofCursor c.next.2).prepend (.ok t) := by
  rw [ofCursor]
  split
  · rename_i u hu
    rw [h] at hu
    cases hu
    rw [dif_neg (by rw [more]; exact Bool.false_ne_true)]
  · rename_i fault hf
    rw [h] at hf
    cases hf

theorem ofCursor_end (h : c.next.1 = .ok t) (ends : t.is .endOfInput = true) : ofCursor c = constant (.ok t) := by
  rw [ofCursor]
  split
  · rename_i u hu
    rw [h] at hu
    cases hu
    rw [dif_pos ends]
  · rename_i fault hf
    rw [h] at hf
    cases hf

/-- Whether reading goes on behind a fault or not, the fault comes first. -/
theorem ofCursor_fault {fault : LexFault} (h : c.next.1 = .error fault) :
    ∃ more, (ofCursor c).items = .error fault :: more := by
  rw [ofCursor]
  split
  · rename_i u hu
    rw [h] at hu
    cases hu
  · rename_i fault' hf
    rw [h] at hf
    cases hf
    split
    · exact ⟨_, rfl⟩
    · exact ⟨[], rfl⟩

/-- What comes first is what the cursor reads next. -/
theorem item_ofCursor_zero (c : Cursor) : (ofCursor c).item 0 = c.next.1 := by
  cases h : c.next.1 with
  | error fault =>
    obtain ⟨more, items⟩ := ofCursor_fault h
    rw [item, items]
    rfl
  | ok t =>
    by_cases ends : t.is .endOfInput = true
    · rw [ofCursor_end h ends]
      rfl
    · rw [ofCursor_token h (by simpa using ends)]
      rfl

/-- What is read from a cursor on, if that ends with the `n`th item at the latest. -/
def within : Nat → Cursor → Option Feed
  | 0, _ => none
  | n + 1, c =>
    match c.next.1 with
    | .ok t => if t.is .endOfInput then some (constant (.ok t)) else (within n c.next.2).map (prepend (.ok t))
    | .error _ => none

theorem ofCursor_of_within {n : Nat} (h : within n c = some f) : ofCursor c = f := by
  induction n generalizing c f with
  | zero => cases h
  | succ n ih =>
    rw [within] at h
    split at h
    · rename_i t ht
      split at h
      · rename_i ends
        cases h
        exact ofCursor_end ht ends
      · rename_i more
        obtain ⟨g, hg, rfl⟩ := Option.map_eq_some_iff.1 h
        rw [ofCursor_token ht (by simpa using more), ih hg]
    · cases h

/-- Everything that is read from a cursor on is a token of the text and begins there at the earliest. -/
theorem read_of_item : ∀ {n : Nat}, (ofCursor c).item n = .ok t → t.Read ∧ c.place.offset ≤ t.location.offset := by
  fun_induction ofCursor c with
  | case1 c first h ends =>
    intro n hn
    rw [item_constant] at hn
    cases hn
    obtain ⟨read, le, _⟩ := Cursor.next_ok h
    exact ⟨read, le⟩
  | case2 c first h ends _ ih =>
    intro n hn
    cases n with
    | zero =>
      cases hn
      obtain ⟨read, le, _⟩ := Cursor.next_ok h
      exact ⟨read, le⟩
    | succ n =>
      rw [item_prepend_succ] at hn
      obtain ⟨read, le⟩ := ih hn
      exact ⟨read, Int.le_trans (Cursor.le_offset_next c) le⟩
  | case3 c fault h moved ih =>
    intro n hn
    cases n with
    | zero => cases hn
    | succ n =>
      rw [item_prepend_succ] at hn
      obtain ⟨read, le⟩ := ih hn
      exact ⟨read, Int.le_trans (Cursor.le_offset_next c) le⟩
  | case4 c fault h stuck =>
    intro n hn
    rw [item_constant] at hn
    cases hn

/-- No token begins before an earlier one has ended. -/
theorem stop_le_of_item : ∀ {i j : Nat}, i < j → (ofCursor c).item i = .ok t → (ofCursor c).item j = .ok u →
    t.stop.offset ≤ u.location.offset := by
  fun_induction ofCursor c with
  | case1 c first h ends =>
    intro i j _ hi hj
    rw [item_constant] at hi hj
    cases hi
    cases hj
    exact Int.le_of_eq (congrArg Location.offset ((Cursor.next_ok h).1.stop_of_end ends))
  | case2 c first h ends _ ih =>
    intro i j less hi hj
    obtain ⟨j, rfl⟩ : ∃ k, j = k + 1 := ⟨j - 1, by omega⟩
    rw [item_prepend_succ] at hj
    cases i with
    | zero =>
      cases hi
      exact Int.le_trans (Cursor.next_ok h).2.2 (read_of_item hj).2
    | succ i =>
      rw [item_prepend_succ] at hi
      exact ih (by omega) hi hj
  | case3 c fault h moved ih =>
    intro i j less hi hj
    obtain ⟨j, rfl⟩ : ∃ k, j = k + 1 := ⟨j - 1, by omega⟩
    rw [item_prepend_succ] at hj
    cases i with
    | zero => cases hi
    | succ i =>
      rw [item_prepend_succ] at hi
      exact ih (by omega) hi hj
  | case4 c fault h stuck =>
    intro i j _ hi
    rw [item_constant] at hi
    cases hi

/-- After the end of input there is nothing but the end of input. -/
theorem item_succ_of_end (ends : t.is .endOfInput = true) :
    ∀ {n : Nat}, (ofCursor c).item n = .ok t → (ofCursor c).item (n + 1) = .ok t := by
  fun_induction ofCursor c with
  | case1 c first h _ =>
    intro n hn
    rwa [item_constant] at hn ⊢
  | case2 c first h more _ ih =>
    intro n hn
    cases n with
    | zero =>
      cases hn
      exact absurd ends more
    | succ n =>
      rw [item_prepend_succ] at hn ⊢
      exact ih hn
  | case3 c fault h moved ih =>
    intro n hn
    cases n with
    | zero => cases hn
    | succ n =>
      rw [item_prepend_succ] at hn ⊢
      exact ih hn
  | case4 c fault h stuck =>
    intro n hn
    rw [item_constant] at hn
    cases hn

theorem ends_ofCursor (c : Cursor) : (ofCursor c).Ends := by
  fun_induction ofCursor c with
  | case1 c first h ends =>
    intro t ht
    cases ht
    exact ends
  | case2 c first h ends _ ih => exact ih
  | case3 c fault h moved ih => exact ih
  | case4 c fault h stuck =>
    intro t ht
    cases ht

end Feed
end Cddl
