import Cddl.Proofs.Lockstep.Rule
import Cddl.Proofs.Phrase.Rule
/-!
# Nesting has its limit in the tokens

The readers of what is nested are made for as many levels as there are tokens.  More levels would change nothing, nor
would other readers below the last one: a level is entered behind a token, so that below the last one no token is left
(`settled`).  By the way it is seen which tokens a reading takes before it fails, none of them the end of input.
-/
namespace Cddl

open Production Reader

/-! ## Where a reading fails -/

/-- A reading from a window has failed, behind tokens before the end of input. -/
inductive Window.Fails (w : Window) : Fault → Window → Prop
  | mismatch {x : Expectation} {ts : List Token} {v : Window} (walk : w.Steps ts v) (before : Unended ts) :
      Fails w (.mismatch x v.current) v
  | parenthesis {ts : List Token} {v : Window} (walk : w.Steps ts v) (before : Unended ts)
      (opening : v.current.is .leftParen = true) : Fails w (.parenthesizedBody v.current.location) v
  | lexical {f : LexFault} {ts : List Token} {u v : Window} (walk : w.Steps ts u) (before : Unended ts)
      (more : u.current.is .endOfInput = false) (stuck : u.advance = (.error f, v)) : Fails w (.lexical f) v

/-- One window twice, which a walk over tokens before the end of input has led to, and a bound on what is left there. -/
def Onward (w₀ : Window) (n : Nat) : WindowRel := fun w w' =>
  w = w' ∧ w.Ends ∧ w.size ≤ n ∧ ∃ ts, Unended ts ∧ w₀.Steps ts w

/-- One fault twice, which the reading from a window has met. -/
def FailsOnward (w₀ : Window) (fault fault' : Fault) : WindowRel :=
  fun w w' => fault = fault' ∧ w = w' ∧ w₀.Fails fault w

variable {w₀ w v : Window} {n : Nat} {bottom : Nested}

theorem Token.Alike.refl (t : Token) : t.Alike .exact t := ⟨rfl, rfl, rfl⟩

theorem abreast_onward (w₀ : Window) (n : Nat) : Abreast .exact (FailsOnward w₀) (Onward w₀ n) where
  current := by rintro w _ ⟨rfl, _⟩; exact .refl _
  upcoming := by rintro w _ ⟨rfl, _⟩; exact .refl _
  lastStop := by rintro w _ ⟨rfl, _⟩; rfl
  size := by rintro w _ ⟨rfl, _⟩; rfl
  joined := by rintro w _ ⟨rfl, _⟩ _; rfl
  mismatch := by
    rintro w _ ⟨rfl, _, _, ts, before, walk⟩ x
    exact ⟨rfl, rfl, .mismatch walk before⟩
  parenthesis := by
    rintro w _ ⟨rfl, _, _, ts, before, walk⟩ opening
    exact ⟨rfl, rfl, .parenthesis walk before opening⟩

/-- Behind a token there is less left. -/
theorem forward_onward (w₀ : Window) (n : Nat) : Forward .exact (FailsOnward w₀) (Onward w₀ (n + 1)) (Onward w₀ n) where
  outer := abreast_onward w₀ _
  inner := abreast_onward w₀ _
  widen := fun ⟨same, ends, le, walk⟩ => ⟨same, ends, Nat.le_succ_of_le le, walk⟩
  advance := by
    rintro w _ ⟨rfl, ends, le, ts, before, walk⟩ more
    rw [run_advance]
    cases move : w.advance with
    | mk result v =>
      cases result with
      | error f => exact .error ⟨rfl, rfl, .lexical walk before more move⟩
      | ok t =>
        obtain rfl := Window.eq_current_of_advance move
        have less : v.size ≤ n := Nat.le_of_succ_le_succ (Nat.le_trans (Window.size_of_advance ends move more) le)
        exact .ok (.refl _) ⟨rfl, ends.advance move, less, ts ++ [w.current],
          unended_append.2 ⟨before, unended_cons.2 ⟨more, unended_nil⟩⟩, walk.trans (.one move)⟩

theorem Reader.run_bind_ok {α β : Type} {r : Reader α} {f : α → Reader β} {a : α} (h : r.run.run w = (.ok a, v)) :
    (r >>= f).run.run w = (f a).run.run v := by
  have step : (r >>= f).run.run w = ExceptT.bindCont f (r.run.run w).1 (r.run.run w).2 := rfl
  rw [step, h]
  rfl

/-! ## Levels of nesting -/

namespace Production

/-- Readers for `n` levels of nesting, with the given ones below them. -/
def nestedOver (bottom : Nested) : Nat → Nested
  | 0 => bottom
  | n + 1 => ⟨fun w => type1 (nestedOver bottom n) w, fun w => group (nestedOver bottom n) w⟩

/-- Levels of nesting add up. -/
theorem nestedOver_add (bottom : Nested) (k : Nat) : ∀ n, nestedOver (nestedOver bottom k) n = nestedOver bottom (n + k)
  | 0 => by rw [Nat.zero_add]; rfl
  | n + 1 => by
    rw [Nat.succ_add, nestedOver, nestedOver, nestedOver_add bottom k n]

/-- Where nothing is left, there is no type. -/
theorem run_type1_end (ends : w.current.is .endOfInput = true) :
    (type1 bottom).run.run w = (fail .typeExpression : Reader Type1).run.run w := by
  obtain ⟨⟨body, text, location⟩, upcoming, feed, lastStop⟩ := w
  obtain rfl : body = .mark .endOfInput := Token.is_iff.1 ends
  rfl

/-- Where nothing is left, there is a group without entries. -/
theorem run_group_end (none : w.size = 0) : (group bottom).run.run w = emptyGroup.run.run w := by
  have many {α : Type} (test : Token → Bool) (item : Reader α) : (manyWhile test item).run.run w = (.ok [], w) := by
    have step : (manyWhile test item).run.run w = (atMostWhile test item w.size).run.run w := rfl
    rw [step, none]
    rfl
  have choice : (groupChoice bottom).run.run w = (.ok ⟨[], some ⟨w.current.location, w.lastStop⟩⟩, w) := by
    unfold groupChoice
    rw [run_bind_ok (show current.run.run w = (.ok w.current, w) from rfl), run_bind_ok (many _ _)]
    rfl
  unfold group
  rw [run_bind_ok (show current.run.run w = (.ok w.current, w) from rfl), run_bind_ok choice, run_bind_ok (many _ _)]
  rfl

/-- One level more changes nothing below as many levels as there are tokens, whatever stands under it. -/
theorem lockstep_nestedOver (w₀ : Window) (bottom : Nested) :
    ∀ n, (nested n).Lockstep .exact (FailsOnward w₀) (Onward w₀ n) (nestedOver bottom (n + 1))
  | 0 => by
    have abreast := abreast_onward w₀ 0
    constructor
    · rintro w _ ⟨rfl, ends, le, walk⟩
      have step : (nestedOver bottom 1).type1.run.run w = (type1 bottom).run.run w := rfl
      rw [step, run_type1_end (Window.current_of_size (Nat.le_zero.1 le))]
      exact Lockstep.fail abreast _ w w ⟨rfl, ends, le, walk⟩
    · rintro w _ ⟨rfl, ends, le, walk⟩
      have step : (nestedOver bottom 1).group.run.run w = (group bottom).run.run w := rfl
      rw [step, run_group_end (Nat.le_zero.1 le)]
      exact lockstep_emptyGroup abreast w w ⟨rfl, ends, le, walk⟩
  | n + 1 => lockstep_level (forward_onward w₀ n) (lockstep_nestedOver w₀ bottom n)

end Production

/-! ## Rules -/

/-- What reading a rule from a window comes to, however many levels of nesting past the number of tokens are granted,
and whatever readers stand below them. -/
def Window.ReadsRule (w : Window) (x : Except Fault Rule × Window) : Prop :=
  ∀ (bottom : Nested) (n : Nat), w.size < n → (rule (nestedOver bottom n)).run.run w = x

/-- How the reading of a rule comes out beside one with more levels of nesting. -/
theorem paired_rule (bottom : Nested) (ends : w.Ends) (enough : w.size < n) : Paired (FailsOnward w) (Onward w w.size)
    (Same (Rule.respan id)) ((closed rule).run.run w) ((rule (nestedOver bottom n)).run.run w) := by
  obtain ⟨k, rfl⟩ : ∃ k, n = w.size + 1 + k := ⟨n - (w.size + 1), by omega⟩
  have levels := lockstep_nestedOver w (nestedOver bottom k) w.size
  rw [nestedOver_add] at levels
  rw [run_closed]
  exact lockstep_rule (forward_onward w w.size) levels w w
    ⟨rfl, ends, Nat.le_succ _, [], unended_nil, .nil⟩

/-- **The reading of a rule is settled by the tokens, not by the bound on its nesting.** -/
theorem settled (ends : w.Ends) : w.ReadsRule ((closed rule).run.run w) := by
  intro bottom n enough
  have paired := paired_rule bottom ends enough
  generalize (closed rule).run.run w = x at paired ⊢
  generalize (rule (nestedOver bottom n)).run.run w = y at paired ⊢
  cases paired with
  | ok value windows =>
    obtain ⟨rfl, _⟩ := windows
    simp only [Same, Rule.respan_id] at value
    rw [value]
  | error failed =>
    obtain ⟨rfl, rfl, _⟩ := failed
    rfl

theorem fails_of_rule {fault : Fault} (ends : w.Ends) (h : (closed rule).run.run w = (.error fault, v)) :
    w.Fails fault v := by
  have paired := paired_rule (nested 0) ends (Nat.lt_succ_self _)
  rw [h] at paired
  generalize (rule (nestedOver (nested 0) (w.size + 1))).run.run w = y at paired
  cases paired with
  | error failed => exact failed.2.2

end Cddl
