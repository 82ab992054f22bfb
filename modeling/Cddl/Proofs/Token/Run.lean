import Cddl.Proofs.Token.Extent
import Cddl.Proofs.Token.Feed
/-!
# Reading a text to its end

A run takes the tokens of a text one after the other, up to the end of input or up to the first fault.  Every text has a
run (`Cursor.exists_run`), which says what the text is read to (`Cursor.Run.tokenize_ok`, `Cursor.Run.tokenize_error`)
and what a stream on the text begins with.
-/
namespace Cddl

namespace Cursor

variable {c : Cursor} {t : Token} {f : LexFault}

/-! ## One step -/

theorem triviaLength_le : ∀ (comment : Bool) (s : Text), triviaLength comment s ≤ s.length
  | _, [] => Nat.le_refl _
  | comment, u :: r => by
    have le (b : Bool) : triviaLength b r + 1 ≤ r.length + 1 := Nat.succ_le_succ (triviaLength_le b r)
    rw [triviaLength]
    split
    · exact le _
    split
    · exact le _
    split
    · exact le _
    · exact Nat.zero_le _

theorem rest_skipTrivia (c : Cursor) : c.skipTrivia.rest = c.rest.drop (triviaLength false c.rest) := rest_skip _ _

theorem offset_skipTrivia (c : Cursor) : c.skipTrivia.place.offset = c.place.offset + triviaLength false c.rest :=
  offset_skip _ _

/-- A token that is read stands right behind the blanks, and reading goes on right behind the token. -/
theorem next_token (h : c.next.1 = .ok t) (more : t.is .endOfInput = false) :
    c.rest.drop (triviaLength false c.rest) = t.text ++ c.next.2.rest ∧ t.text ≠ [] ∧
      t.location.offset = c.place.offset + triviaLength false c.rest ∧
        c.next.2.place.offset = t.location.offset + t.text.length := by
  rw [← rest_skipTrivia, ← offset_skipTrivia]
  unfold next at h ⊢
  generalize c.skipTrivia = d at *
  obtain ⟨place, _ | ⟨u, r⟩⟩ := d
  · cases h
    cases more
  · unfold readHere at h ⊢
    simp only [] at h ⊢
    split at h
    · rename_i body n scanned
      have extent := scan_extent scanned
      cases h
      refine ⟨?_, List.cons_ne_nil _ _, rfl, ?_⟩
      · rw [rest_skip, List.drop_succ_cons, List.cons_append, List.take_append_drop]
      · rw [offset_skip, List.length_cons, List.length_take, Nat.min_eq_left extent]
    · cases h

/-- The end of input stands at the end, with nothing but blanks before it. -/
theorem next_end (h : c.next.1 = .ok t) (ends : t.is .endOfInput = true) :
    triviaLength false c.rest = c.rest.length ∧ t = .endAt t.location ∧
      t.location.offset = c.place.offset + c.rest.length := by
  have trivia := triviaLength_le false c.rest
  have rest := rest_skipTrivia c
  have offset := offset_skipTrivia c
  unfold next at h
  generalize c.skipTrivia = d at *
  obtain ⟨place, _ | ⟨u, r⟩⟩ := d
  · cases h
    have all : c.rest.length ≤ triviaLength false c.rest := List.drop_eq_nil_iff.1 rest.symm
    have same := Nat.le_antisymm trivia all
    refine ⟨same, rfl, ?_⟩
    rw [← same]
    exact offset
  · unfold readHere at h
    simp only [] at h
    split at h
    · rename_i scanned
      cases h
      rw [Token.is_iff] at ends
      cases ends
      exact absurd scanned scan_ne_end
    · cases h

/-- A fault is found in what is left of the text. -/
theorem next_fault (h : c.next.1 = .error f) :
    c.place.offset ≤ f.location.offset ∧ f.location.offset ≤ c.place.offset + c.rest.length := by
  have trivia := triviaLength_le false c.rest
  have left : c.skipTrivia.rest.length = c.rest.length - triviaLength false c.rest := by
    rw [rest_skipTrivia, List.length_drop]
  have offset := offset_skipTrivia c
  unfold next at h
  generalize c.skipTrivia = d at *
  obtain ⟨place, _ | ⟨u, r⟩⟩ := d
  · cases h
  · unfold readHere at h
    simp only [] at h left offset
    split at h
    · cases h
    · rename_i cause used scanned
      cases h
      rw [List.length_cons] at left
      simp only []
      split
      · rename_i missed
        rw [missed] at scanned
        have extent := scan_noRadixDigits scanned
        rw [offset_skip]
        simp only []
        omega
      · omega

/-! ## Runs -/

/-- Reading on from a cursor: the tokens up to the end of input, that included, or those before the first fault. -/
inductive Run : Cursor → List Token → Option LexFault → Prop
  | ended {c : Cursor} {t : Token} (h : c.next.1 = .ok t) (ends : t.is .endOfInput = true) : Run c [t] none
  | fault {c : Cursor} {f : LexFault} (h : c.next.1 = .error f) : Run c [] (some f)
  | token {c : Cursor} {t : Token} {ts : List Token} {fault : Option LexFault} (h : c.next.1 = .ok t)
      (more : t.is .endOfInput = false) (rest : Run c.next.2 ts fault) : Run c (t :: ts) fault

/-- Every text is read to its end or to a fault. -/
theorem exists_run (c : Cursor) : ∃ ts fault, c.Run ts fault := by
  cases h : c.next.1 with
  | error f => exact ⟨[], some f, .fault h⟩
  | ok t =>
    by_cases ends : t.is .endOfInput = true
    · exact ⟨[t], none, .ended h ends⟩
    · have more : t.is .endOfInput = false := by simpa using ends
      have shorter := length_rest_next_lt h more
      obtain ⟨ts, fault, rest⟩ := exists_run c.next.2
      exact ⟨t :: ts, fault, .token h more rest⟩
termination_by c.rest.length

namespace Run

variable {ts : List Token} {fault : Option LexFault} {source : Text} {n : Nat}

/-- Every token of a run has been scanned, but for the end of input. -/
theorem read (h : c.Run ts fault) : ∀ t ∈ ts, t.Read := by
  induction h with
  | ended h => exact List.forall_mem_singleton.2 (next_ok h).1
  | fault => exact List.forall_mem_nil _
  | token h _ _ ih => exact List.forall_mem_cons.2 ⟨(next_ok h).1, ih⟩

theorem pulls (h : c.Run ts fault) :
    c.pulls (ts.length + fault.toList.length) = ts.map .ok ++ fault.toList.map .error := by
  induction h with
  | ended h => exact congrArg (· :: []) h
  | fault h => exact congrArg (· :: []) h
  | @token c t ts fault h _ _ ih =>
    rw [List.length_cons, Nat.add_right_comm, Cursor.pulls, h, ih]
    rfl

/-- The items of a stream on a text begin with its run. -/
theorem items (h : c.Run ts fault) : ∃ more, (Feed.ofCursor c).items = ts.map .ok ++ (fault.toList.map .error ++ more) ∧
    (fault = none → more = []) := by
  induction h with
  | ended h ends =>
    rw [Feed.ofCursor_end h ends]
    exact ⟨[], rfl, fun _ => rfl⟩
  | @fault c f h =>
    obtain ⟨more, first⟩ := Feed.ofCursor_fault h
    exact ⟨more, first, fun none => by cases none⟩
  | token h more _ ih =>
    obtain ⟨behind, items, whole⟩ := ih
    rw [Feed.ofCursor_token h more]
    exact ⟨behind, congrArg (_ :: ·) items, whole⟩

/-! ## Runs and streams -/

/-- What a stream on a text begins with is its run, if it ends with the end of input. -/
theorem of_items : ∀ {ts : List Token} {c : Cursor} {t : Token}, Unended ts → t.is .endOfInput = true →
    (∀ i u, (ts ++ [t])[i]? = some u → (Feed.ofCursor c).item i = .ok u) → c.Run (ts ++ [t]) none
  | [], c, t, _, ends, items => by
    have first := items 0 t rfl
    rw [Feed.item_ofCursor_zero] at first
    exact .ended first ends
  | a :: ts, c, t, hts, ends, items => by
    obtain ⟨more, hts⟩ := unended_cons.1 hts
    have first := items 0 a rfl
    rw [Feed.item_ofCursor_zero] at first
    refine .token first more (of_items hts ends fun i u hi => ?_)
    rw [← Feed.item_prepend_succ (.ok a), ← Feed.ofCursor_token first more]
    exact items (i + 1) u hi

/-- What comes behind tokens only is one more token of the run, or the fault that ends it. -/
theorem item_of_clear (h : c.Run ts fault) : ∀ {i : Nat}, (Feed.ofCursor c).Clear i →
    (∃ t ∈ ts, (Feed.ofCursor c).item i = .ok t) ∨ ∃ f, fault = some f ∧ (Feed.ofCursor c).item i = .error f := by
  induction h with
  | @ended c t h ends =>
    intro i _
    rw [Feed.ofCursor_end h ends, Feed.item_constant]
    exact .inl ⟨t, List.mem_cons_self, rfl⟩
  | @fault c f h =>
    intro i clear
    have first := (Feed.item_ofCursor_zero c).trans h
    cases i with
    | zero => exact .inr ⟨f, rfl, first⟩
    | succ i =>
      obtain ⟨t, ht⟩ := clear 0 (Nat.succ_pos i)
      rw [first] at ht
      cases ht
  | @token c t ts fault h more _ ih =>
    intro i clear
    rw [Feed.ofCursor_token h more] at clear ⊢
    cases i with
    | zero => exact .inl ⟨t, List.mem_cons_self, rfl⟩
    | succ i =>
      have rest : (Feed.ofCursor c.next.2).Clear i := fun j hj => by
        rw [← Feed.item_prepend_succ (.ok t)]
        exact clear (j + 1) (Nat.succ_lt_succ hj)
      rw [Feed.item_prepend_succ]
      exact (ih rest).imp_left fun ⟨u, hu, item⟩ => ⟨u, List.mem_cons_of_mem _ hu, item⟩

theorem mem_of_item (h : c.Run ts fault) (clear : (Feed.ofCursor c).Clear n) (item : (Feed.ofCursor c).item n = .ok t) :
    t ∈ ts := by
  rcases h.item_of_clear clear with ⟨u, hu, item'⟩ | ⟨f, _, item'⟩
  · rw [item'] at item
    cases item
    exact hu
  · rw [item'] at item
    cases item

theorem fault_of_item (h : c.Run ts fault) (clear : (Feed.ofCursor c).Clear n)
    (item : (Feed.ofCursor c).item n = .error f) : fault = some f := by
  rcases h.item_of_clear clear with ⟨u, hu, item'⟩ | ⟨f, eq, item'⟩
  · rw [item'] at item
    cases item
  · rw [item'] at item
    cases item
    exact eq

/-- The tokens of a run stand in what is left of the text, and the fault that ends it behind them. -/
theorem bounds (h : c.Run ts fault) :
    (∀ t ∈ ts, c.place.offset ≤ t.location.offset ∧ t.stop.offset ≤ c.place.offset + c.rest.length) ∧
      ∀ f, fault = some f → c.place.offset ≤ f.location.offset ∧ f.location.offset ≤ c.place.offset + c.rest.length ∧
        ∀ t ∈ ts, t.stop.offset ≤ f.location.offset := by
  induction h with
  | @ended c t h ends =>
    obtain ⟨_, _, place⟩ := next_end h ends
    have stop := congrArg Location.offset ((next_ok h).1.stop_of_end ends)
    refine ⟨fun u hu => ?_, fun f hf => by cases hf⟩
    rw [List.mem_singleton.1 hu]
    omega
  | @fault c f h =>
    obtain ⟨low, high⟩ := next_fault h
    refine ⟨fun t ht => absurd ht List.not_mem_nil, fun g hg => ?_⟩
    cases hg
    exact ⟨low, high, fun t ht => absurd ht List.not_mem_nil⟩
  | @token c t ts fault h more _ ih =>
    obtain ⟨rest, _, place, next⟩ := next_token h more
    have length := congrArg List.length rest
    have short := triviaLength_le false c.rest
    have stop : t.stop.offset = c.next.2.place.offset := next.symm
    rw [List.length_drop, List.length_append] at length
    obtain ⟨tokens, faults⟩ := ih
    refine ⟨fun u hu => ?_, fun f hf => ?_⟩
    · rcases List.mem_cons.1 hu with rfl | hu
      · omega
      · have := tokens u hu
        omega
    · obtain ⟨low, high, behind⟩ := faults f hf
      refine ⟨by omega, by omega, fun u hu => ?_⟩
      rcases List.mem_cons.1 hu with rfl | hu
      · omega
      · exact behind u hu

/-- The stream on a text without a fault is the stream of its tokens. -/
theorem ofCursor_eq (h : c.Run ts fault) : fault = none → ts ≠ [] ∧ Feed.ofCursor c = .ofTokens ts := by
  induction h with
  | @ended c t h ends =>
    intro _
    obtain ⟨_, own, _⟩ := next_end h ends
    refine ⟨List.cons_ne_nil _ _, ?_⟩
    rw [Feed.ofCursor_end h ends, Feed.constant, Feed.ofTokens, List.getLast?_singleton, Option.map_some,
      Option.getD_some, ← own]
    rfl
  | fault => exact fun none => by cases none
  | @token c t ts fault h more _ ih =>
    intro none
    obtain ⟨hne, eq⟩ := ih none
    refine ⟨List.cons_ne_nil _ _, ?_⟩
    rw [Feed.ofCursor_token h more, eq, Feed.ofTokens, Feed.ofTokens, List.getLast?_cons_of_ne_nil hne]
    rfl

/-! ## All the tokens of a text -/

theorem mapM_ok_append (ts : List Token) (more : List (Except LexFault Token)) :
    ((ts.map .ok : List (Except LexFault Token)) ++ more).mapM id = (more.mapM id).map (ts ++ ·) := by
  induction ts with
  | nil =>
    rw [List.map_nil, List.nil_append]
    cases more.mapM id <;> rfl
  | cons t ts ih =>
    rw [List.map_cons, List.cons_append, List.mapM_cons, ih]
    cases more.mapM id <;> rfl

/-- A text without a fault is read to the tokens of its run. -/
theorem tokenize_ok (h : (Cursor.start source).Run ts none) : tokenize source = .ok ts := by
  obtain ⟨more, items, whole⟩ := h.items
  rw [tokenize, Feed.ofText, items, whole rfl, mapM_ok_append]
  exact congrArg Except.ok (List.append_nil ts)

theorem tokenize_error (h : (Cursor.start source).Run ts (some f)) : tokenize source = .error f := by
  obtain ⟨more, items, _⟩ := h.items
  have first : ((some f).toList.map Except.error ++ more).mapM id = (.error f : Except LexFault (List Token)) := by
    rw [Option.toList, List.map_cons, List.cons_append, List.mapM_cons]
    rfl
  rw [tokenize, Feed.ofText, items, mapM_ok_append, first]
  rfl

/-- The tokens that a text is read to are those of its run. -/
theorem of_tokenize (h : tokenize source = .ok ts) : (Cursor.start source).Run ts none := by
  obtain ⟨us, fault, run⟩ := (Cursor.start source).exists_run
  cases fault with
  | some f => cases run.tokenize_error.symm.trans h
  | none =>
    cases run.tokenize_ok.symm.trans h
    exact run

end Run
end Cursor
end Cddl
