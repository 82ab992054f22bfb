import Cddl.Proofs.Phrase.Rule
/-!
# What is spelled is read

The converse of what `Phrase.Read` and `Phrase.Rule` say: a production reads whatever its tokens spell, if there are as
many levels of nesting as there are tokens.  A rule of `Spells` names what must not follow, and that is where the
production stops.
-/
namespace Cddl

namespace Production

open Reader

variable {n k : Nat} {w u v : Window} {pre : Location} {t : Token} {ts us after : List Token}

/-- The production for a phrase reads it between two windows.  A loop may be given more turns than it needs. -/
def Given (n : Nat) (w v : Window) : Phrase → Prop
  | .type2 t => (type2 (nested n)).Gives w t v
  | .operator o => (operator? (nested n)).Gives w o v
  | .type1 t => (type1 (nested n)).Gives w t v
  | .choices cs => ∀ k, w.size ≤ k → (atMostWhile (·.is .typeChoice) (do
      let _ ← advance
      return typeChoice (← type1 (nested n))) k).Gives w cs v
  | .type t => (typeExpr (type1 (nested n))).Gives w t v
  | .args a => (ifAngle (genericArgs (nested n))).Gives w a v
  | .moreArgs as => ∀ k, w.size ≤ k → (atMostWhile (·.is .comma) (do
      let _ ← advance
      genericArg (nested (n + 1))) k).Gives w as v
  | .entry e => (groupEntry (nested n)).Gives w e v
  | .entries es => ∀ k, w.size ≤ k → (atMostWhile (fun t => !endsChoice t) (listedEntry (nested n)) k).Gives w es v
  | .groupChoice c => (groupChoice (nested n)).Gives w c v
  | .groupChoices cs => ∀ k, w.size ≤ k → (atMostWhile (·.is .groupChoice) (do
      let _ ← advance
      groupChoice (nested n)) k).Gives w cs v
  | .group g => (group (nested n)).Gives w g v

/-! ## Loops -/

section

variable {α : Type} {test : Token → Bool} {item : Reader α} {a : α} {as : List α}

theorem gives_atMostWhile_nil (h : test w.current = false) (k : Nat) : (atMostWhile test item k).Gives w [] w := by
  cases k with
  | zero => exact gives_pure.2 ⟨rfl, rfl⟩
  | succ k =>
    unfold atMostWhile
    simp only [gives_bind, gives_current, and_assoc, exists_and_left, exists_eq_left', h, Bool.false_eq_true, if_false,
      gives_pure, and_self]

theorem gives_atMostWhile_cons (h : test w.current = true) (first : item.Gives w a u)
    (more : (atMostWhile test item k).Gives u as v) : (atMostWhile test item (k + 1)).Gives w (a :: as) v := by
  unfold atMostWhile
  simp only [gives_bind, gives_current, and_assoc, exists_and_left, exists_eq_left', h, if_true, gives_pure]
  exact ⟨a, u, first, as, v, more, rfl, rfl⟩

theorem gives_manyWhile : (manyWhile test item).Gives w as v ↔ (atMostWhile test item w.size).Gives w as v := by
  simp only [manyWhile, gives_bind, gives_get, and_assoc, exists_and_left, exists_eq_left']

end

/-! ## Occurrences and arrows -/

theorem gives_joinedUint_none {before : Token} (h : uintAt? before.stop w.current = none) :
    (joinedUint before).Gives w none w := by
  simp only [joinedUint, gives_bind, gives_current, and_assoc, exists_and_left, exists_eq_left', h,
    gives_pure, and_self]

theorem gives_joinedUint_some {before : Token} {m : Int} (h : uintAt? before.stop w.current = some m)
    (move : w.advance = (.ok w.current, v)) : (joinedUint before).Gives w (some m) v := by
  simp only [joinedUint, gives_bind, gives_current, and_assoc, exists_and_left, exists_eq_left', h, gives_pure,
    gives_advance]
  exact ⟨_, v, move, trivial, rfl⟩

theorem gives_asterisk {lower upper : Option Int} (move : w.advance = (.ok w.current, u))
    (joined : (joinedUint w.current).Gives u upper v) :
    (asterisk lower).Gives w (if lower = none && upper = none then .zeroOrMore else .between lower upper) v := by
  simp only [asterisk, gives_bind, gives_advance, gives_pure]
  exact ⟨_, u, move, upper, v, joined, rfl, rfl⟩

theorem not_joined_of_shows {stop : Location} (hne : after ≠ []) (hv : v.Shows after)
    (free : beginsJoined stop after = false) : uintAt? stop v.current = none := by
  rw [beginsJoined_of_shows hne hv] at free
  simpa using free

/-- The occurrence before a window is read if nothing in front of it belongs to one. -/
theorem gives_occur_none (hlen : 2 ≤ after.length) (hw : w.Shows after) (free : beginsOccurrence after = false) :
    occur?.Gives w none w := by
  match after, hlen, hw with
  | t :: t' :: after, _, hw =>
    obtain rfl := hw.current
    obtain rfl := hw.upcoming
    simp only [beginsOccurrence, nextIs, List.head?_cons, Option.any_some, Bool.or_eq_false_iff,
      startsOccurrence] at free
    obtain ⟨⟨⟨optional, asterisk⟩, plus⟩, counted⟩ := free
    simp only [occur?, gives_bind, gives_current, and_assoc, exists_and_left, exists_eq_left']
    split
    case h_1 body => simp [Token.is, body] at optional
    case h_2 body => simp [Token.is, body] at plus
    case h_3 body => simp [Token.is, body] at asterisk
    case h_4 n body =>
      rw [Token.isUint_eq body, Bool.true_and] at counted
      simp only [gives_bind, gives_upcoming, and_assoc, exists_and_left, exists_eq_left', counted, Bool.false_eq_true,
        if_false, gives_pure, and_self]
    case h_5 => exact gives_pure.2 ⟨rfl, rfl⟩

theorem gives_occurrence {oc : Option Occurrence} (h : SpellsOccurrence oc ts after) (hs : w.Steps ts v)
    (hlen : 2 ≤ after.length) (hv : v.Shows after) : occurrence?.Gives w oc v := by
  have hne : after ≠ [] := List.ne_nil_of_length_pos (by omega)
  have counted {o : Occur} {start stop : Location} (first : w.current.location = start) (last : v.lastStop = stop)
      (h : occur?.Gives w (some o) v) : occurrence?.Gives w (some ⟨o, some ⟨start, stop⟩⟩) v := by
    subst first last
    simp only [occurrence?, gives_bind, gives_current, and_assoc, exists_and_left, exists_eq_left']
    refine ⟨some o, v, h, ?_⟩
    simp only [gives_bind, gives_spanFrom, gives_pure, and_assoc, exists_and_left, exists_eq_left', and_self]
  have marked {m : Mark} (hm : w.current.is m = true) : w.current.body = .mark m := Token.is_iff.1 hm
  cases h with
  | none free =>
    cases hs
    simp only [occurrence?, gives_bind, gives_current, and_assoc, exists_and_left, exists_eq_left']
    exact ⟨none, w, gives_occur_none hlen hv free, gives_pure.2 ⟨rfl, rfl⟩⟩
  | optional mark | oneOrMore mark =>
    cases hs with
    | cons move done =>
      cases done
      refine counted rfl (Window.lastStop_of_advance move) ?_
      simp only [occur?, gives_bind, gives_current, and_assoc, exists_and_left, exists_eq_left', marked mark,
        gives_advance, gives_pure]
      exact ⟨_, v, move, trivial, rfl⟩
  | zeroOrMore mark free =>
    cases hs with
    | cons move done =>
      cases done
      refine counted rfl (Window.lastStop_of_advance move) ?_
      simp only [occur?, gives_bind, gives_current, and_assoc, exists_and_left, exists_eq_left',
        marked mark, gives_pure]
      exact ⟨_, v, gives_asterisk move (gives_joinedUint_none (not_joined_of_shows hne hv free)), rfl, rfl⟩
  | upTo mark upper =>
    cases hs with
    | cons move rest =>
      cases rest with
      | cons second done =>
        cases done
        refine counted rfl (Window.lastStop_of_advance second) ?_
        simp only [occur?, gives_bind, gives_current, and_assoc, exists_and_left, exists_eq_left', marked mark,
          gives_pure]
        exact ⟨_, v, gives_asterisk move (gives_joinedUint_some upper second), rfl, rfl⟩
  | atLeast lower mark free =>
    cases hs with
    | cons move rest =>
      have star := (Window.advance_eq_ok move).2.1
      cases rest with
      | cons second done =>
        cases done
        refine counted rfl (Window.lastStop_of_advance second) ?_
        rw [star] at mark
        simp only [occur?, gives_bind, gives_current, and_assoc, exists_and_left, exists_eq_left', lower,
          gives_upcoming, mark, if_true, gives_advance, gives_pure]
        exact ⟨_, _, move, _, v, gives_asterisk second (gives_joinedUint_none (not_joined_of_shows hne hv free)),
          rfl, rfl⟩
  | fromTo lower mark upper =>
    cases hs with
    | cons move rest =>
      have star := (Window.advance_eq_ok move).2.1
      cases rest with
      | cons second rest =>
        cases rest with
        | cons third done =>
          cases done
          refine counted rfl (Window.lastStop_of_advance third) ?_
          rw [star] at mark
          simp only [occur?, gives_bind, gives_current, and_assoc, exists_and_left, exists_eq_left', lower,
            gives_upcoming, mark, if_true, gives_advance, gives_pure]
          exact ⟨_, _, move, _, v, gives_asterisk second (gives_joinedUint_some upper third), rfl, rfl⟩

theorem gives_arrow {cut : Bool} (h : SpellsArrow cut ts) (hs : w.Steps ts v) : arrow.Gives w cut v := by
  cases h with
  | plain is =>
    cases hs with
    | cons move done =>
      cases done
      simp only [arrow, gives_bind, gives_at?, gives_expect, and_assoc, exists_and_left, exists_eq_left',
        Token.not_is is (show Mark.arrow ≠ .cut by decide), Bool.false_eq_true, if_false, gives_pure]
      exact ⟨is, _, v, move, trivial, rfl⟩
  | cut mark is =>
    cases hs with
    | cons move rest =>
      cases rest with
      | cons second done =>
        cases done
        simp only [arrow, gives_bind, gives_at?, gives_advance, gives_expect, and_assoc, exists_and_left,
          exists_eq_left', mark, if_true, gives_pure]
        exact ⟨_, _, move, is, _, v, second, trivial, rfl⟩

/-! ## What is spelled -/

/-- What is spelled between two windows is read there. -/
def Completes (p : Phrase) (pre : Location) (ts after : List Token) : Prop :=
  ∀ n w v, w.lastStop = pre → w.Ends → w.size ≤ n → 2 ≤ after.length → w.Steps ts v → v.Shows after → Given n w v p

theorem ne_nil_of_two (h : 2 ≤ ts.length) : ts ≠ [] := List.ne_nil_of_length_pos (by omega)

theorem two_le_append (h : 2 ≤ after.length) : 2 ≤ (us ++ after).length := by
  rw [List.length_append]
  omega

/-- The walk over a phrase that takes a token, and what is left for what follows. -/
theorem Completes.split {p : Phrase} (h : Completes p pre ts (us ++ after)) (unended : Unended ts)
    (hpre : w.lastStop = pre) (hw : w.Ends) (hsize : w.size ≤ n) (hlen : 2 ≤ after.length)
    (hs : w.Steps (ts ++ us) v) (hv : v.Shows after) :
    ∃ u, w.Steps ts u ∧ u.Steps us v ∧ Given n w u p ∧ u.lastStop = stopAfter pre ts ∧ u.Ends ∧
      u.size + ts.length ≤ w.size := by
  obtain ⟨u, first, second⟩ := hs.split
  exact ⟨u, first, second, h n w u hpre hw hsize (two_le_append hlen) first (second.shows hv), hpre ▸ first.lastStop,
    first.ends hw, first.size hw unended⟩

/-- A turn of a loop over a separator and an item. -/
theorem given_turn {p : Phrase} {s : Token} {m : Mark} (mark : s.is m = true) (hm : m ≠ .endOfInput)
    (first : Completes p s.stop ts (us ++ after)) (unended : Unended ts) (hw : w.Ends) (hsize : w.size ≤ n)
    (hk : w.size ≤ k) (hlen : 2 ≤ after.length) (hs : w.Steps (s :: (ts ++ us)) v) (hv : v.Shows after) :
    ∃ k' x u, k = k' + 1 ∧ w.current.is m = true ∧ w.advance = (.ok w.current, x) ∧ Given n x u p ∧
      u.lastStop = stopAfter s.stop ts ∧ u.Ends ∧ u.size ≤ k' ∧ x.size + 1 ≤ n ∧ u.size + 1 ≤ n ∧ u.Steps us v := by
  obtain rfl := hs.head
  obtain ⟨x, move, stop, rest⟩ := hs.tail
  have small := Window.size_of_advance hw move (not_end_of_is mark hm)
  obtain ⟨u, _, walk, given, stop', hu, smaller⟩ :=
    first.split unended stop (hw.advance move) (show x.size ≤ n by omega) hlen rest hv
  obtain ⟨k', rfl⟩ : ∃ k', k = k' + 1 := ⟨k - 1, by omega⟩
  exact ⟨k', x, u, rfl, mark, move, given, stop', hu, by omega, by omega, by omega, walk⟩

end Production
end Cddl
