import Cddl.Proofs.Reading.Request
import Cddl.Proofs.Token.Tiling
import Mathlib.Order.Bounds.Defs
/-!
# Attempts at rules

A document is read rule by rule.  Where a rule fails, at whatever depth, the next one is attempted at the first place
from there on at which a rule can begin, be that the very token that could not be read, and if there is no such place
the reading is over (`document_attempts`).
-/
namespace Cddl

open Production

variable {source : Text} {tokens ts : List Token} {w u v : Window} {i j k : Nat} {fault : Fault} {r : Rule}
  {as : List Attempt}

/-! ## Places -/

/-- Whether a rule can begin with the token at an index: it is a name, and an assignment or parameters come next. -/
def startsRuleAt (tokens : List Token) (i : Nat) : Bool :=
  (tokenAt tokens i).is .name && [.assign, .extendType, .extendGroup, .leftAngle].any (tokenAt tokens (i + 1)).is

theorem startsRule_eq (t u : Token) :
    startsRule t u = (t.is .name && [.assign, .extendType, .extendGroup, .leftAngle].any u.is) := by
  unfold startsRule assignment? Token.is
  cases u.body with
  | mark m => cases m <;> rfl
  | _ => rfl

theorem is_name_of_startsRuleAt (h : startsRuleAt tokens i = true) : (tokenAt tokens i).is .name = true :=
  (Bool.and_eq_true_iff.1 h).1

theorem not_startsRuleAt_of_end (ends : (tokenAt tokens i).is .endOfInput = true) : startsRuleAt tokens i = false :=
  Bool.eq_false_iff.2 fun starts => by
    rw [Token.not_is (is_name_of_startsRuleAt starts) (by decide)] at ends
    cases ends

theorem tokenAt_of_lt (h : i < tokens.length) : tokenAt tokens i = tokens[i] := by
  unfold tokenAt
  rw [List.getElem?_eq_getElem h]
  rfl

theorem lt_length_of_tokenAt (more : (tokenAt tokens i).is .endOfInput = false) : i < tokens.length := by
  refine Nat.lt_of_not_le fun beyond => ?_
  rw [tokenAt_of_length_le beyond] at more
  cases more

namespace Tiling

/-- A token stands behind those before it, and does not begin where one of them does. -/
theorem offset_lt (tiling : Tiling source tokens) (less : i < j) (more : (tokenAt tokens j).is .endOfInput = false)
    (more' : (tokenAt tokens i).is .endOfInput = false) :
    (tokenAt tokens i).location.offset < (tokenAt tokens j).location.offset := by
  have hi := lt_length_of_tokenAt more'
  have hj := lt_length_of_tokenAt more
  have apart := List.pairwise_iff_getElem.1 tiling.apart i j hi hj less
  rw [← tokenAt_of_lt hi, ← tokenAt_of_lt hj] at apart
  obtain ⟨taken, _⟩ := tiling.text (tokenAt tokens i) (tokenAt_of_lt hi ▸ List.getElem_mem hi) more'
  have := List.length_pos_iff.2 taken
  omega

theorem last (tiling : Tiling source tokens) : (tokenAt tokens (tokens.length - 1)).is .endOfInput = true := by
  obtain ⟨before, last, rfl, _, ends, _⟩ := tiling.ended
  rwa [tokenAt_of_lt (by simp), List.getElem_concat_length (by simp)]

/-- Nothing but the end of input comes behind it. -/
theorem end_of_le (tiling : Tiling source tokens) (ends : (tokenAt tokens i).is .endOfInput = true) (le : i ≤ j) :
    (tokenAt tokens j).is .endOfInput = true := by
  obtain ⟨before, last, rfl, unended, isEnd, _⟩ := tiling.ended
  have beyond : before.length ≤ i := by
    refine Nat.le_of_not_lt fun inside => ?_
    have more := unended before[i] (List.getElem_mem inside)
    rw [tokenAt_of_lt (by rw [List.length_append]; omega), List.getElem_append_left inside, more] at ends
    cases ends
  rcases Nat.eq_or_lt_of_le (Nat.le_trans beyond le) with rfl | less
  · rwa [tokenAt_of_lt (by simp), List.getElem_concat_length rfl]
  · exact tokenAt_of_length_le (by rw [List.length_append]; exact less)

end Tiling

/-! ## Attempts -/

/-- The reading of one rule: the index of the token that it begins with, how it comes out, and the index of the token
that is current then. -/
structure Attempt where
  start : Nat
  outcome : Except Fault Rule
  stop : Nat

namespace Attempt

/-- The rule that has been read. -/
def rule? (a : Attempt) : Option Rule := a.outcome.toOption

/-- The fault that has been collected. -/
def collected? (a : Attempt) : Option Fault :=
  match a.outcome with
  | .ok _ => none
  | .error fault => if fault.isFatal then none else some fault

end Attempt

/-- An attempt is made from a window, which moves on over tokens of the list and no further. -/
structure Window.Tries (w : Window) (tokens : List Token) (a : Attempt) (v : Window) : Prop where
  here : w.StandsAt tokens a.start
  more : (tokenAt tokens a.start).is .endOfInput = false
  run : (closed rule).run.run w = (a.outcome, v)
  moves : w.MovesOn tokens a.start a.stop v
  there : v.StandsAt tokens a.stop
  inside : a.stop < tokens.length

/-- The attempts that are made from a window on, which stands at an index.  Behind a rule the next one is attempted
right away.  Behind a fault that does not end the reading, which is at the token that was current then, it is attempted
at the first place from that token on at which a rule can begin. -/
inductive Attempts (tokens : List Token) : Window → Nat → List Attempt → Prop
  | done {w : Window} {i : Nat} (here : w.StandsAt tokens i) (ends : (tokenAt tokens i).is .endOfInput = true) :
      Attempts tokens w i []
  | read {w v : Window} {i j : Nat} {r : Rule} {as : List Attempt} (tries : w.Tries tokens ⟨i, .ok r, j⟩ v)
      (taken : i < j) (rest : Attempts tokens v j as) : Attempts tokens w i (⟨i, .ok r, j⟩ :: as)
  | resumed {w u v : Window} {i j k : Nat} {wanted : Expectation} {as : List Attempt}
      (tries : w.Tries tokens ⟨i, .error (.mismatch wanted (tokenAt tokens j)), j⟩ u)
      (first : IsLeast {k | j ≤ k ∧ startsRuleAt tokens k = true} k) (moves : u.MovesOn tokens j k v) (past : i < k)
      (rest : Attempts tokens v k as) :
      Attempts tokens w i (⟨i, .error (.mismatch wanted (tokenAt tokens j)), j⟩ :: as)
  | lost {w u : Window} {i j : Nat} {wanted : Expectation}
      (tries : w.Tries tokens ⟨i, .error (.mismatch wanted (tokenAt tokens j)), j⟩ u)
      (none : ∀ k, j ≤ k → startsRuleAt tokens k = false) :
      Attempts tokens w i [⟨i, .error (.mismatch wanted (tokenAt tokens j)), j⟩]
  | ended {w v : Window} {i j : Nat} {fault : Fault} (tries : w.Tries tokens ⟨i, .error fault, j⟩ v)
      (fatal : fault.isFatal = true) : Attempts tokens w i [⟨i, .error fault, j⟩]

namespace Attempts

/-- Attempts are made one behind the other. -/
theorem le_start (h : Attempts tokens w i as) : ∀ a ∈ as, i ≤ a.start := by
  induction h with
  | done => exact fun _ h => absurd h List.not_mem_nil
  | read _ taken _ ih =>
    exact List.forall_mem_cons.2 ⟨Nat.le_refl _, fun a ha => Nat.le_trans (Nat.le_of_lt taken) (ih a ha)⟩
  | resumed _ _ _ past _ ih =>
    exact List.forall_mem_cons.2 ⟨Nat.le_refl _, fun a ha => Nat.le_trans (Nat.le_of_lt past) (ih a ha)⟩
  | lost | ended => exact List.forall_mem_singleton.2 (Nat.le_refl _)

theorem pairwise (h : Attempts tokens w i as) : as.Pairwise fun a b => a.start < b.start ∧ a.stop ≤ b.start := by
  induction h with
  | done => exact .nil
  | read _ taken rest ih =>
    exact .cons (fun b hb => ⟨Nat.lt_of_lt_of_le taken (rest.le_start b hb), rest.le_start b hb⟩) ih
  | resumed _ first _ past rest ih =>
    exact .cons (fun b hb => ⟨Nat.lt_of_lt_of_le past (rest.le_start b hb),
      Nat.le_trans first.1.1 (rest.le_start b hb)⟩) ih
  | lost | ended => exact List.pairwise_singleton _ _

end Attempts

/-! ## One attempt -/

namespace Window

/-- However many levels of nesting are granted, a rule is read as it is with one for each token. -/
theorem ReadsRule.run {x : Except Fault Rule × Window} (reads : w.ReadsRule x) (ends : w.Ends) :
    (closed rule).run.run w = x :=
  (settled ends (nested 0) (w.size + 1) (Nat.lt_succ_self _)).symm.trans (reads (nested 0) _ (Nat.lt_succ_self _))

theorem Reaches.exists_steps {x : Except Fault Rule × Window} (reaches : w.Reaches x) (failed : x.1 = .error fault)
    (mild : fault.isFatal = false) : ∃ ts, w.Steps ts x.2 := by
  cases reaches with
  | result => cases failed
  | mismatch walk => exact ⟨_, walk⟩
  | parenthesis | lexical =>
    cases failed
    cases mild

variable (tiling : Tiling source tokens) (here : w.StandsAt tokens i) (more : (tokenAt tokens i).is .endOfInput = false)
include tiling here more

/-- A walk over tokens before the end of input does not lead out of the list. -/
theorem StandsAt.lt_length (walk : w.Steps ts v) (before : Unended ts) : i + ts.length < tokens.length := by
  refine Nat.lt_of_not_le fun beyond => ?_
  have inside := lt_length_of_tokenAt more
  obtain ⟨_, passed⟩ := here.steps walk
  have listed : tokenAt tokens (tokens.length - 1) ∈ ts := by
    rw [passed]
    exact List.mem_map_of_mem (List.mem_range'_1.2 (by omega))
  cases (before _ listed).symm.trans tiling.last

theorem StandsAt.tries {outcome : Except Fault Rule} (run : (closed rule).run.run w = (outcome, v))
    (walk : w.Steps ts v) (before : Unended ts) : w.Tries tokens ⟨i, outcome, i + ts.length⟩ v where
  here := here
  more := more
  run := run
  moves := here.movesOn_steps walk
  there := (here.steps walk).1
  inside := here.lt_length tiling more walk before

/-- A rule that fails without ending the reading fails at the current token, which is behind the first one if that is a
name. -/
theorem StandsAt.tries_mild (run : (closed rule).run.run w = (.error fault, u)) (mild : fault.isFatal = false) :
    ∃ j wanted, fault = .mismatch wanted (tokenAt tokens j) ∧ w.Tries tokens ⟨i, .error fault, j⟩ u ∧
      (j = i → (tokenAt tokens i).is .name = false) := by
  cases fails_of_rule here.ends run with
  | parenthesis | lexical => cases mild
  | @mismatch wanted ts _ walk before =>
    have tries := here.tries tiling more run walk before
    refine ⟨_, wanted, by rw [tries.there.current], tries, fun same => ?_⟩
    refine Bool.eq_false_iff.2 fun name => ?_
    rw [← here.current] at name more
    rcases rule_of_name (walks_nested w.size) name with ⟨x, move, reaches⟩ | ⟨f, x, stuck, _⟩
    · rw [← run_closed, run] at reaches
      -- so the window would have moved on and still stood where it did
      obtain ⟨onward, again⟩ := reaches.exists_steps rfl rfl
      have back : ts = [] := List.length_eq_zero_iff.1 (by omega)
      subst back
      cases walk
      exact Nat.lt_irrefl _ ((Steps.cons move again).size_lt here.ends (List.cons_ne_nil _ _) more)
    · exact here.not_stuck stuck

omit tiling here more

/-! ## The way to the next attempt -/

/-- A search for the next rule passes over no place at which one can begin past the given offset. -/
theorem Searches.exists_steps {failedAt : Int} {x : Except Fault Unit × Window} (search : u.Searches failedAt x)
    (here : u.StandsAt tokens j) : ∃ ts v, x = (.ok (), v) ∧ u.Steps ts v ∧
      (∀ m, j ≤ m → m < j + ts.length → startsRuleAt tokens m = true →
        ¬ failedAt < (tokenAt tokens m).location.offset) ∧
      ((tokenAt tokens (j + ts.length)).is .endOfInput = true ∨ startsRuleAt tokens (j + ts.length) = true) := by
  induction search generalizing j with
  | @found w there =>
    refine ⟨[], w, rfl, .nil, fun m le less => absurd less (Nat.not_lt.2 le), ?_⟩
    rw [here.current, here.upcoming, startsRule_eq] at there
    exact there.imp_right And.left
  | @on w v x _ not move _ ih =>
    rw [here.current, here.upcoming, startsRule_eq] at not
    obtain ⟨ts, z, rfl, walk, passed, there⟩ := ih (here.advance move)
    have length : j + (w.current :: ts).length = j + 1 + ts.length := by rw [List.length_cons]; omega
    refine ⟨w.current :: ts, z, rfl, .cons move walk, fun m le less => ?_, by rwa [length]⟩
    rw [length] at less
    rcases Nat.eq_or_lt_of_le le with rfl | beyond
    · exact not
    · exact passed m beyond less
  | stuck _ _ move => exact absurd move here.not_stuck

/-- Behind a fault the reading goes on at the first place from there on at which a rule can begin, or comes to the end
of input over no such place.  That the place has to lie past the start of the rule that failed rules none of them
out. -/
theorem Searches.first (tiling : Tiling source tokens) (more : (tokenAt tokens i).is .endOfInput = false) (le : i ≤ j)
    (other : j = i → (tokenAt tokens i).is .name = false) (here : u.StandsAt tokens j)
    (search : u.Searches (tokenAt tokens i).location.offset (.ok (), v)) :
    ∃ k, v.StandsAt tokens k ∧ u.MovesOn tokens j k v ∧
      (IsLeast {k | j ≤ k ∧ startsRuleAt tokens k = true} k ∧ i < k ∨
        (tokenAt tokens k).is .endOfInput = true ∧ ∀ m, j ≤ m → startsRuleAt tokens m = false) := by
  obtain ⟨ts, z, same, walk, passed, there⟩ := search.exists_steps here
  cases same
  -- a rule that can begin from the fault on begins past the one that failed
  have past : ∀ m, j ≤ m → startsRuleAt tokens m = true → i < m := by
    intro m hm starts
    refine Nat.lt_of_le_of_ne (Nat.le_trans le hm) fun same => ?_
    have name := is_name_of_startsRuleAt starts
    rw [← same, other (by omega)] at name
    cases name
  have none : ∀ m, j ≤ m → m < j + ts.length → startsRuleAt tokens m = false := by
    intro m hm less
    refine Bool.eq_false_iff.2 fun starts => passed m hm less starts ?_
    exact tiling.offset_lt (past m hm starts) (Token.not_is (is_name_of_startsRuleAt starts) (by decide)) more
  refine ⟨j + ts.length, (here.steps walk).1, here.movesOn_steps walk, ?_⟩
  rcases there with ends | starts
  · refine .inr ⟨ends, fun m hm => ?_⟩
    rcases Nat.lt_or_ge m (j + ts.length) with less | beyond
    · exact none m hm less
    · exact not_startsRuleAt_of_end (tiling.end_of_le ends beyond)
  · refine .inl ⟨⟨⟨Nat.le_add_right _ _, starts⟩, fun m hm => ?_⟩, past _ (Nat.le_add_right _ _) starts⟩
    refine Nat.le_of_not_lt fun less => ?_
    cases hm.2.symm.trans (none m hm.1 less)

end Window

/-! ## All attempts -/

/-- What a session comes to is told by some attempts: the rules that have been read, the faults that have been added to
those it began with, and the one that ended the reading, if one has. -/
structure ToldBy (as : List Attempt) (collected : List Fault) (rules : List Rule)
    (x : Option Fault × Session) : Prop where
  rules : rules = as.filterMap Attempt.rule?
  collected : x.2.collected = collected ++ as.filterMap Attempt.collected?
  last : ∀ fault, x.1 = some fault → fault.isFatal = true ∧ ∃ a, as.getLast? = some a ∧ a.outcome = .error fault

namespace ToldBy

variable {collected : List Fault} {rules : List Rule} {x : Option Fault × Session}

theorem last_cons (h : ToldBy as collected rules x) (a : Attempt) :
    ∀ fault, x.1 = some fault → fault.isFatal = true ∧ ∃ b, (a :: as).getLast? = some b ∧ b.outcome = .error fault := by
  intro fault failed
  obtain ⟨fatal, b, last, outcome⟩ := h.last fault failed
  exact ⟨fatal, b, by rw [List.getLast?_cons, last]; rfl, outcome⟩

theorem read (h : ToldBy as collected rules x) (i j : Nat) (r : Rule) :
    ToldBy (⟨i, .ok r, j⟩ :: as) collected (r :: rules) x where
  rules := congrArg (r :: ·) h.rules
  collected := h.collected
  last := h.last_cons _

theorem failed (mild : fault.isFatal = false) (h : ToldBy as (collected ++ [fault]) rules x) (i j : Nat) :
    ToldBy (⟨i, .error fault, j⟩ :: as) collected rules x where
  rules := h.rules
  collected := by
    have head : Attempt.collected? ⟨i, .error fault, j⟩ = some fault := if_neg (by rw [mild]; exact Bool.false_ne_true)
    rw [h.collected, List.filterMap_cons_some head, List.append_assoc, List.singleton_append]
  last := h.last_cons _

end ToldBy

/-- **The turns of a session over the tokens of a text are attempts.** -/
theorem Session.Turns.exists_attempts {s : Session} {rules : List Rule} {x : Option Fault × Session}
    (h : s.Turns rules ts x) (tiling : Tiling source tokens) : ∀ {i}, s.window.StandsAt tokens i →
      ∃ as, Attempts tokens s.window i as ∧ ToldBy as s.collected rules x := by
  induction h with
  | @done s ends =>
    intro i here
    rw [here.current] at ends
    exact ⟨[], .done here ends, rfl, (List.append_nil _).symm, fun _ h => by cases h⟩
  | @rule s r v ts us rules x more reads walk before taken _ ih =>
    intro i here
    rw [here.current] at more
    have tries := here.tries tiling more (reads.run here.ends) walk before
    obtain ⟨as, rest, told⟩ := ih tries.there
    exact ⟨_, .read tries (Nat.lt_add_of_pos_right (List.length_pos_iff.2 taken)) rest, told.read _ _ _⟩
  | @recovered s fault u v ts us rules x more reads mild search _ _ _ turns ih =>
    intro i here
    rw [here.current] at more search
    obtain ⟨j, wanted, rfl, tries, other⟩ := here.tries_mild tiling more (reads.run here.ends) mild
    obtain ⟨k, there, moves, ⟨first, past⟩ | ⟨ends, none⟩⟩ :=
      search.first tiling more tries.moves.forward other tries.there
    · obtain ⟨as, rest, told⟩ := ih there
      exact ⟨_, .resumed tries first moves past rest, told.failed mild _ _⟩
    · -- no turn is taken at the end of input
      have atEnd : v.current.is .endOfInput = true := by rw [there.current]; exact ends
      have told : ToldBy [] (s.collected ++ [.mismatch wanted (tokenAt tokens j)]) rules x := by
        cases turns with
        | done => exact ⟨rfl, (List.append_nil _).symm, fun _ h => by cases h⟩
        | rule more | recovered more | lost more | ended more => cases more.symm.trans atEnd
      exact ⟨_, .lost tries none, told.failed mild _ _⟩
  | @lost s fault lexical u v ts more reads mild search =>
    intro i here
    rw [here.current] at more
    obtain ⟨j, wanted, rfl, tries, _⟩ := here.tries_mild tiling more (reads.run here.ends) mild
    obtain ⟨_, _, same, _⟩ := search.exists_steps tries.there
    cases same
  | @ended s fault v ts more reads fatal consumed =>
    intro i here
    rw [here.current] at more
    cases consumed with
    | stuck walk _ move => exact absurd move (here.steps walk).1.not_stuck
    | moved walk before =>
      have tries := here.tries tiling more (reads.run here.ends) walk before
      have silent : Attempt.collected? ⟨i, .error fault, i + ts.length⟩ = none := if_pos fatal
      refine ⟨_, .ended tries fatal, rfl, ?_, fun _ same => ?_⟩
      · rw [List.filterMap_cons_none silent]
        exact (List.append_nil _).symm
      · cases same
        exact ⟨fatal, _, rfl, rfl⟩

/-- **A document is read by attempts at rules, each of them made at the first possible place.**  The document has the
rules of the attempts that succeed, and the faults that are collected are those of the attempts that fail, in the order
in which they are made, which is that of the tokens.  An attempt that ends the reading is the last one. -/
theorem document_attempts (h : tokenize source = .ok tokens) :
    ∃ s as, Session.ofFeed (.ofText source) = .ok s ∧ Attempts tokens s.window 0 as ∧
      (as.Pairwise fun a b => a.start < b.start ∧ a.stop ≤ b.start) ∧
      s.document.2.collected = as.filterMap Attempt.collected? ∧
      (∀ d, s.document.1 = .ok d → d.rules = as.filterMap Attempt.rule?) ∧
      ∀ fault, s.document.1 = .error fault → fault.isFatal = true ∧
        ∃ a, as.getLast? = some a ∧ a.outcome = .error fault := by
  have run := Cursor.Run.of_tokenize h
  have feed : Feed.ofText source = .ofTokens tokens := (run.ofCursor_eq rfl).2
  obtain ⟨w, start, here⟩ := Window.exists_standsAt tokens
  obtain ⟨rules, ts, last, t, turns, out⟩ := Session.exists_turns w.size ⟨w, []⟩ here.ends (Nat.le_refl _)
  obtain ⟨as, attempts, told⟩ := turns.exists_attempts (run.tiles rfl).tiling here
  have document : Session.document ⟨w, []⟩ =
      ((Session.answer rules last).map (⟨·, some ⟨w.current.location, t.window.lastStop⟩⟩), t) := by
    unfold Session.document
    simp only [out]
  refine ⟨⟨w, []⟩, as, ?_, attempts, attempts.pairwise, ?_, fun d read => ?_, fun fault failed => ?_⟩
  · rw [feed, Session.ofFeed, start]
    rfl
  · rw [document]
    exact told.collected
  · rw [document] at read
    cases last with
    | some => cases read
    | none =>
      cases read
      exact told.rules
  · rw [document] at failed
    cases last with
    | none => cases failed
    | some =>
      cases failed
      exact told.last _ rfl

/-- Three attempts: one that fails at what ends no array, one that begins right behind that, and one that fails at the
end of input. -/
theorem document_attempts_sample : ∃ tokens s as, tokenize "a = ] b = 1 c" = .ok tokens ∧
    Session.ofFeed (.ofText "a = ] b = 1 c") = .ok s ∧ Attempts tokens s.window 0 as ∧
      (as.filterMap Attempt.collected?).length = 2 ∧
      ∃ d, s.document.1 = .ok d ∧ d.rules = as.filterMap Attempt.rule? := by
  have run : (Cursor.start "a = ] b = 1 c").Run [_, _, _, _, _, _, _, _] none :=
    .token rfl rfl (.token rfl rfl (.token rfl rfl (.token rfl rfl (.token rfl rfl (.token rfl rfl (.token rfl rfl
      (.ended rfl rfl)))))))
  obtain ⟨s, as, start, attempts, _, collected, rules, _⟩ := document_attempts run.tokenize_ok
  have read : ((Session.ofFeed (.ofText "a = ] b = 1 c")).toOption.any fun s =>
      decide (s.document.2.collected.length = 2) && s.document.1.toOption.isSome) = true := by
    rw [Feed.ofText, (run.ofCursor_eq rfl).2]
    decide +kernel
  rw [start] at read
  obtain ⟨two, whole⟩ := Bool.and_eq_true_iff.1 read
  refine ⟨_, s, as, run.tokenize_ok, start, attempts, by rw [← collected]; exact of_decide_eq_true two, ?_⟩
  cases document : s.document.1 with
  | error fault =>
    rw [document] at whole
    cases whole
  | ok d => exact ⟨d, rfl, rules d document⟩

end Cddl
