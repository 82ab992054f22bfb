import Cddl.Proofs.Recovery
import Cddl.Proofs.Termination.Depth
/-!
# Loops end by their own tests

The loops of the grammar, and the search for the next rule, are given as many turns as there are tokens.  Here they are
told without a bound, by what they do in a turn, and shown to come to the same: each turn takes a token, so a loop comes
to an end before its turns are used up.
-/
namespace Cddl

open Production

variable {α β : Type} {w v : Window} {n : Nat}

/-! ## Loops without a bound -/

/-- A loop that takes turns for as long as the current token passes the test. -/
inductive Reader.Loop (test : Token → Bool) (item : Reader α) : Window → Except Fault (List α) × Window → Prop
  | stop {w : Window} (ended : test w.current = false) : Loop test item w (.ok [], w)
  | turn {w v : Window} {a : α} {x : Except Fault (List α) × Window} (go : test w.current = true)
      (read : item.run.run w = (.ok a, v)) (rest : Loop test item v x) : Loop test item w (x.1.map (a :: ·), x.2)
  | fault {w v : Window} {fault : Fault} (go : test w.current = true) (read : item.run.run w = (.error fault, v)) :
      Loop test item w (.error fault, v)

/-- From a window on, a loop comes to what it would without a bound. -/
def Reader.Unbounded (test : Token → Bool) (item : Reader α) (w : Window) : Prop :=
  Reader.Loop test item w ((Reader.manyWhile test item).run.run w)

/-- A turn of a loop takes a token. -/
structure Reader.Progress (test : Token → Bool) (item : Reader α) : Prop where
  more {t : Token} (go : test t = true) : t.is .endOfInput = false
  less {w v : Window} {a : α} (ends : w.Ends) (go : test w.current = true) (read : item.run.run w = (.ok a, v)) :
    v.Ends ∧ v.size < w.size

namespace Reader

theorem run_bind_error {r : Reader α} {f : α → Reader β} {fault : Fault} (h : r.run.run w = (.error fault, v)) :
    (r >>= f).run.run w = (.error fault, v) := by
  have step : (r >>= f).run.run w = ExceptT.bindCont f (r.run.run w).1 (r.run.run w).2 := rfl
  rw [step, h]
  rfl

theorem run_map {r : Reader α} {g : α → β} : (do let a ← r; return g a : Reader β).run.run w =
    ((r.run.run w).1.map g, (r.run.run w).2) := by
  cases read : r.run.run w with
  | mk result v =>
    cases result with
    | error fault => rw [run_bind_error read]; rfl
    | ok a => rw [run_bind_ok read]; rfl

theorem loop_atMostWhile {test : Token → Bool} {item : Reader α} (progress : Progress test item) :
    ∀ (n : Nat) (w : Window), w.Ends → w.size ≤ n → Loop test item w ((atMostWhile test item n).run.run w)
  | 0, w, _, le => by
    refine .stop (Bool.eq_false_iff.2 fun go => ?_)
    have ends := Window.current_of_size (Nat.le_zero.1 le)
    rw [progress.more go] at ends
    cases ends
  | n + 1, w, ends, le => by
    have step : (atMostWhile test item (n + 1)).run.run w = (if test w.current then (do
        let a ← item
        let as ← atMostWhile test item n
        return a :: as) else return [] : Reader (List α)).run.run w := rfl
    rw [step]
    by_cases go : test w.current = true
    · rw [if_pos go]
      cases read : item.run.run w with
      | mk result v =>
        cases result with
        | error fault =>
          rw [run_bind_error read]
          exact .fault go read
        | ok a =>
          obtain ⟨ends, less⟩ := progress.less ends go read
          rw [run_bind_ok read, run_map]
          exact .turn go read (loop_atMostWhile progress n v ends (by omega))
    · rw [if_neg go]
      exact .stop (Bool.eq_false_iff.2 go)

theorem unbounded_of_progress {test : Token → Bool} {item : Reader α} (progress : Progress test item) (ends : w.Ends) :
    Unbounded test item w := loop_atMostWhile progress w.size w ends (Nat.le_refl _)

/-- An item that begins with a mark takes that at least. -/
theorem Progress.after {m : Mark} {item : Reader α} (walks : item.Walks) (hm : m ≠ .endOfInput) :
    Progress (·.is m) (do let _ ← advance; item) where
  more go := Token.not_is go hm
  less {w v a} ends go read := by
    obtain ⟨t, u, first, rest⟩ := gives_bind.1 read
    have move := gives_advance.1 first
    have less := Window.size_of_advance ends move (Token.not_is go hm)
    have reached := walks u
    rw [show item.run.run u = (.ok a, v) from rest] at reached
    cases reached with
    | result walk =>
      have here := ends.advance move
      exact ⟨walk.ends here, Nat.lt_of_le_of_lt (walk.size_le here) less⟩

end Reader

/-! ## The loops of the grammar -/

/-- Every loop that the productions with the given readers go through, from a window on. -/
structure Production.LoopsEnd (nested : Nested) (w : Window) : Prop where
  params : Reader.Unbounded (·.is .comma) (do let _ ← Reader.advance; genericParam) w
  args : Reader.Unbounded (·.is .comma) (do let _ ← Reader.advance; genericArg nested) w
  /-- The alternatives of a type, in brackets and elsewhere. -/
  choices {r : Reader Type1} (h : r = nested.type1 ∨ r = type1 nested) :
    Reader.Unbounded (·.is .typeChoice) (do let _ ← Reader.advance; return typeChoice (← r)) w
  entries : Reader.Unbounded (fun t => !endsChoice t) (listedEntry nested) w
  groupChoices : Reader.Unbounded (·.is .groupChoice) (do let _ ← Reader.advance; groupChoice nested) w

/-- An entry takes a token. -/
theorem progress_entry (k : Nat) : Reader.Progress (fun t => !endsChoice t) (listedEntry (nested k)) where
  more {t} go := by
    simp only [endsChoice, Bool.not_eq_true', Bool.or_eq_false_iff] at go
    exact go.2
  less {w v e} ends go read := by
    have more : w.current.is .endOfInput = false := by
      simp only [endsChoice, Bool.not_eq_true', Bool.or_eq_false_iff] at go
      exact go.2
    have left : w.size ≠ 0 := fun none => by
      rw [Window.current_of_size none] at more
      cases more
    obtain ⟨m, size⟩ := Nat.exists_eq_succ_of_ne_zero left
    have forward := forward_onward w m
    have start : Onward w (m + 1) w w := ⟨rfl, ends, Nat.le_of_eq size, [], unended_nil, .nil⟩
    have paired := lockstep_listedEntry forward (lockstep_nested forward.again k) w w start
    rw [read] at paired
    cases paired with
    | ok _ windows => exact ⟨windows.2.1, by have := windows.2.2.1; omega⟩

/-- **No loop of the grammar is cut short.** -/
theorem loopsEnd (ends : w.Ends) (k : Nat) : LoopsEnd (nested k) w where
  params := Reader.unbounded_of_progress (.after (.map (.expect _ _)) (by decide)) ends
  args := Reader.unbounded_of_progress (.after (.map (walks_nested k).type1) (by decide)) ends
  choices := by
    rintro r (rfl | rfl)
    · exact Reader.unbounded_of_progress (.after (.map (walks_nested k).type1) (by decide)) ends
    · exact Reader.unbounded_of_progress (.after (.map (walks_type1 (walks_nested k))) (by decide)) ends
  entries := Reader.unbounded_of_progress (progress_entry k) ends
  groupChoices := Reader.unbounded_of_progress (.after (walks_groupChoice (walks_nested k)) (by decide)) ends

/-! ## The search for the next rule -/

/-- A search that moves on until it comes to the end of input or to a rule past the given offset. -/
inductive Window.Searches (failedAt : Int) : Window → Except Fault Unit × Window → Prop
  | found {w : Window} (there : w.current.is .endOfInput = true ∨
      startsRule w.current w.upcoming = true ∧ failedAt < w.current.location.offset) : Searches failedAt w (.ok (), w)
  | on {w v : Window} {x : Except Fault Unit × Window} (more : w.current.is .endOfInput = false)
      (not : startsRule w.current w.upcoming = true → ¬ failedAt < w.current.location.offset)
      (move : w.advance = (.ok w.current, v)) (rest : Searches failedAt v x) : Searches failedAt w x
  | stuck {w v : Window} {f : LexFault} (more : w.current.is .endOfInput = false)
      (not : startsRule w.current w.upcoming = true → ¬ failedAt < w.current.location.offset)
      (move : w.advance = (.error f, v)) : Searches failedAt w (.error (.lexical f), v)

/-- **The search is not cut short.** -/
theorem searches_resynchronize {failedAt : Int} : ∀ (n : Nat) (w : Window), w.Ends → w.size ≤ n →
    w.Searches failedAt ((resynchronize failedAt n).run.run w)
  | 0, w, _, le => .found (.inl (Window.current_of_size (Nat.le_zero.1 le)))
  | n + 1, w, ends, le => by
    rw [Window.run_resynchronize, Reader.run_advance]
    split
    · rename_i there
      rw [Bool.or_eq_true, Bool.and_eq_true, decide_eq_true_eq] at there
      exact .found there
    · rename_i on
      rw [Bool.or_eq_true, Bool.and_eq_true, decide_eq_true_eq, not_or, not_and] at on
      have more := Bool.eq_false_iff.2 on.1
      cases move : w.advance with
      | mk result v =>
        cases result with
        | error f => exact .stuck more on.2 move
        | ok t =>
          obtain rfl := Window.eq_current_of_advance move
          have less := Window.size_of_advance ends move more
          exact .on more on.2 move (searches_resynchronize n v (ends.advance move) (by omega))

end Cddl
