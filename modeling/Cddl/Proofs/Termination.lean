import Cddl.Proofs.Grammar
import Cddl.Proofs.Termination.Loop
import Cddl.Proofs.Token.Feed
/-!
# Reading ends

A document is read in turns: a turn reads a rule, or collects the fault of one and goes on to the next.  `Session.Turns`
tells them without any bound, with the tokens that each of them takes.  Every turn takes one at least, so the turns come
to an end, and there are no more rules and faults than tokens (`parse_finishes`).
-/
namespace Cddl

open Production

variable {F : Feed} {w u v : Window} {ts us : List Token} {s : Session} {rules : List Rule}

/-! ## What a turn takes -/

/-- A window has moved on over tokens before the end of input; the move over the last of them may have failed. -/
inductive Window.Consumes (w : Window) : List Token → Window → Prop
  | moved {ts : List Token} {v : Window} (walk : w.Steps ts v) (before : Unended ts) : Consumes w ts v
  | stuck {f : LexFault} {ts : List Token} {u v : Window} (walk : w.Steps ts u) (before : Unended (ts ++ [u.current]))
      (move : u.advance = (.error f, v)) : Consumes w (ts ++ [u.current]) v

namespace Window

theorem Consumes.after (walk : w.Steps ts u) (before : Unended ts) (h : u.Consumes us v) : w.Consumes (ts ++ us) v := by
  cases h with
  | moved more unended => exact .moved (walk.trans more) (unended_append.2 ⟨before, unended⟩)
  | stuck more unended move =>
    rw [← List.append_assoc]
    refine .stuck (walk.trans more) ?_ move
    rw [List.append_assoc]
    exact unended_append.2 ⟨before, unended⟩

theorem Consumes.unended (h : w.Consumes ts v) : Unended ts := by
  cases h with
  | moved _ before => exact before
  | stuck _ before _ => exact before

theorem Consumes.shows (h : w.Consumes ts v) : w.Shows ts := by
  cases h with
  | moved walk _ => exact (walk.shows v.shows_pair).left
  | @stuck _ _ u _ walk _ _ =>
    have pair : u.Shows ([u.current] ++ [u.upcoming]) := u.shows_pair
    exact walk.shows pair.left

theorem Searches.consumes {failedAt : Int} {x : Except Fault Unit × Window} (h : u.Searches failedAt x) :
    (∃ ts v, u.Steps ts v ∧ Unended ts ∧ x = (.ok (), v) ∧
      (v.current.is .endOfInput = true ∨ failedAt < v.current.location.offset)) ∨
      ∃ f ts v, u.Consumes ts v ∧ ts ≠ [] ∧ x = (.error (.lexical f), v) := by
  induction h with
  | @found w there => exact .inl ⟨[], w, .nil, unended_nil, rfl, there.imp_right And.right⟩
  | @on w v x more _ move _ ih =>
    have first : Unended [w.current] := unended_cons.2 ⟨more, unended_nil⟩
    rcases ih with ⟨ts, u, walk, before, rfl, there⟩ | ⟨f, ts, u, consumed, _, rfl⟩
    · exact .inl ⟨w.current :: ts, u, .cons move walk, unended_cons.2 ⟨more, before⟩, rfl, there⟩
    · exact .inr ⟨f, w.current :: ts, u, consumed.after (.one move) first, List.cons_ne_nil _ _, rfl⟩
  | @stuck w v f more _ move =>
    have first : Unended ([] ++ [w.current]) := unended_cons.2 ⟨more, unended_nil⟩
    exact .inr ⟨f, [w.current], v, .stuck .nil first move, List.cons_ne_nil _ _, rfl⟩

/-- A rule begins with a name or is none. -/
theorem rule_of_not_name (other : w.current.is .name = false) :
    (closed rule).run.run w = (.error (.mismatch .ruleName w.current), w) := by
  have first : (Reader.expect .name .ruleName).run.run w = (.error (.mismatch .ruleName w.current), w) := by
    rw [Reader.expect, run_at?, if_neg (by rw [other]; exact Bool.false_ne_true)]
    rfl
  have current : Reader.current.run.run w = (.ok w.current, w) := rfl
  rw [run_closed]
  exact (Reader.run_bind_ok current).trans (Reader.run_bind_error first)

/-- A rule that ends the reading has taken a token. -/
theorem consumes_of_fatal {fault : Fault} (ends : w.Ends) (read : (closed rule).run.run w = (.error fault, v))
    (fatal : fault.isFatal = true) : ∃ ts, w.Consumes ts v ∧ ts ≠ [] := by
  have name : w.current.is .name = true := by
    refine Bool.of_not_eq_false fun other => ?_
    rw [rule_of_not_name other] at read
    cases read
    cases fatal
  cases fails_of_rule ends read with
  | mismatch => cases fatal
  | @parenthesis ts _ walk before opening =>
    refine ⟨ts, .moved walk before, ?_⟩
    rintro rfl
    cases walk
    rw [Token.not_is name (by decide)] at opening
    cases opening
  | @lexical f ts u _ walk before more stuck =>
    exact ⟨ts ++ [u.current], .stuck walk (unended_append.2 ⟨before, unended_cons.2 ⟨more, unended_nil⟩⟩) stuck,
      List.append_ne_nil_of_right_ne_nil _ (List.cons_ne_nil _ _)⟩

/-- A rule that does not end the reading has failed behind a walk. -/
theorem walk_of_mild {fault : Fault} (ends : w.Ends) (read : (closed rule).run.run w = (.error fault, v))
    (mild : fault.isFatal = false) : ∃ ts, w.Steps ts v ∧ Unended ts := by
  cases fails_of_rule ends read with
  | @mismatch _ ts _ walk before => exact ⟨ts, walk, before⟩
  | parenthesis => cases mild
  | lexical => cases mild

end Window

/-! ## Turns -/

namespace Session

/-- The turns of a session from a state of it on: the rules that are read, the tokens that are taken, and the fault that
ends the reading, if one does, with the state that is left.  No bound is put on the nesting of a rule, on the search for
the next one, or on the number of turns. -/
inductive Turns : Session → List Rule → List Token → Option Fault × Session → Prop
  | done {s : Session} (ends : s.window.current.is .endOfInput = true) : Turns s [] [] (none, s)
  | rule {s : Session} {r : Rule} {v : Window} {ts us : List Token} {rules : List Rule} {x : Option Fault × Session}
      (more : s.window.current.is .endOfInput = false) (reads : s.window.ReadsRule (.ok r, v))
      (walk : s.window.Steps ts v) (before : Unended ts) (taken : ts ≠ []) (rest : Turns ⟨v, s.collected⟩ rules us x) :
      Turns s (r :: rules) (ts ++ us) x
  | recovered {s : Session} {fault : Fault} {u v : Window} {ts us : List Token} {rules : List Rule}
      {x : Option Fault × Session} (more : s.window.current.is .endOfInput = false)
      (reads : s.window.ReadsRule (.error fault, u)) (mild : fault.isFatal = false)
      (search : u.Searches s.window.current.location.offset (.ok (), v)) (walk : s.window.Steps ts v)
      (before : Unended ts) (taken : ts ≠ []) (rest : Turns ⟨v, s.collected ++ [fault]⟩ rules us x) :
      Turns s rules (ts ++ us) x
  | lost {s : Session} {fault lexical : Fault} {u v : Window} {ts : List Token}
      (more : s.window.current.is .endOfInput = false) (reads : s.window.ReadsRule (.error fault, u))
      (mild : fault.isFatal = false) (search : u.Searches s.window.current.location.offset (.error lexical, v))
      (consumed : s.window.Consumes ts v) (taken : ts ≠ []) : Turns s [] ts (some lexical, ⟨v, s.collected ++ [fault]⟩)
  | ended {s : Session} {fault : Fault} {v : Window} {ts : List Token}
      (more : s.window.current.is .endOfInput = false) (reads : s.window.ReadsRule (.error fault, v))
      (fatal : fault.isFatal = true) (consumed : s.window.Consumes ts v) (taken : ts ≠ []) :
      Turns s [] ts (some fault, ⟨v, s.collected⟩)

namespace Turns

variable {x : Option Fault × Session}

/-- A turn adds a rule or a fault, and takes a token at least. -/
theorem count (h : s.Turns rules ts x) : rules.length + x.2.collected.length ≤ s.collected.length + ts.length := by
  have some {ts : List Token} (taken : ts ≠ []) : 1 ≤ ts.length := List.length_pos_iff.2 taken
  induction h with
  | done => simp
  | rule _ _ _ _ taken _ ih =>
    have := some taken
    simp only [List.length_cons, List.length_append] at ih ⊢
    omega
  | recovered _ _ _ _ _ _ taken _ ih =>
    have := some taken
    simp only [List.length_append, List.length_singleton] at ih ⊢
    omega
  | lost _ _ _ _ _ taken =>
    have := some taken
    simp only [List.length_append, List.length_singleton, List.length_nil]
    omega
  | ended => simp

theorem consumes (h : s.Turns rules ts x) : s.window.Consumes ts x.2.window := by
  induction h with
  | done => exact .moved .nil unended_nil
  | rule _ _ walk before _ _ ih => exact ih.after walk before
  | recovered _ _ _ _ walk before _ _ ih => exact ih.after walk before
  | lost _ _ _ _ consumed _ => exact consumed
  | ended _ _ _ consumed _ => exact consumed

end Turns

/-- What is told of a session that has ended: the rules, or the fault that ended it. -/
def answer (rules : List Rule) : Option Fault → Except Fault (List Rule)
  | none => .ok rules
  | some fault => .error fault

theorem exists_turns : ∀ (n : Nat) (s : Session), s.window.Ends → s.window.size ≤ n →
    ∃ rs ts last t, s.Turns rs ts (last, t) ∧ Session.rules n s = (answer rs last, t)
  | 0, s, _, le => ⟨[], [], none, s, .done (Window.current_of_size (Nat.le_zero.1 le)), rfl⟩
  | n + 1, s, ends, le => by
    unfold Session.rules
    split
    case isTrue ended => exact ⟨[], [], none, s, .done ended, rfl⟩
    case isFalse go =>
      have more := Bool.eq_false_iff.2 go
      simp only [read_eq]
      have reads := settled ends
      cases read : (closed Production.rule).run.run s.window with
      | mk result v =>
        rw [read] at reads
        cases result with
        | ok r =>
          obtain ⟨ts, walk, taken, spelled⟩ := reads_closed_rule ends read
          have before := (spelled _ (List.cons_ne_nil _ _) v.shows_pair).unended
          have less : v.size < s.window.size := walk.size_lt ends taken more
          obtain ⟨rs, us, last, t, turns, out⟩ := exists_turns n ⟨v, s.collected⟩ (walk.ends ends)
            (show v.size ≤ n by omega)
          refine ⟨r :: rs, ts ++ us, last, t, .rule more reads walk before taken turns, ?_⟩
          simp only [out]
          cases last <;> rfl
        | error fault =>
          simp only []
          split
          case isTrue fatal =>
            obtain ⟨ts, consumed, taken⟩ := Window.consumes_of_fatal ends read fatal
            exact ⟨[], ts, some fault, _, .ended more reads fatal consumed taken, rfl⟩
          case isFalse mild =>
            have mild := Bool.eq_false_iff.2 mild
            obtain ⟨ts, walk, before⟩ := Window.walk_of_mild ends read mild
            have search : v.Searches s.window.current.location.offset _ :=
              searches_resynchronize v.size v (walk.ends ends) (Nat.le_refl _)
            simp only [recover, read_eq]
            generalize (resynchronize s.window.current.location.offset v.size).run.run v = y at search
            rcases search.consumes with ⟨us, u, onward, behind, rfl, there⟩ | ⟨f, us, u, consumed, taken, rfl⟩
            · have all := walk.trans onward
              have taken : ts ++ us ≠ [] := by
                -- a walk over nothing would have ended where it began, at no place past its own
                intro none
                rw [none] at all
                cases all
                rcases there with ended | past
                · exact go ended
                · exact Int.lt_irrefl _ past
              have less : u.size < s.window.size := all.size_lt ends taken more
              obtain ⟨rs, vs, last, t, turns, out⟩ := exists_turns n ⟨u, s.collected ++ [fault]⟩ (all.ends ends)
                (show u.size ≤ n by omega)
              exact ⟨rs, ts ++ us ++ vs, last, t,
                .recovered more reads mild search all (unended_append.2 ⟨before, behind⟩) taken turns, out⟩
            · exact ⟨[], ts ++ us, some (.lexical f), _, .lost more reads mild search (consumed.after walk before)
                (List.append_ne_nil_of_right_ne_nil _ taken), rfl⟩

end Session

/-! ## Whole streams -/

/-- What becomes of reading a stream: it has no two tokens to begin with, or turns are taken until the end of input
comes up or a fault ends the reading.  There are no more rules and collected faults than tokens taken, and those are the
first of the stream; and wherever a loop of the grammar is met on the way, it is not cut short. -/
inductive Feed.Finishes (F : Feed) : Except (List Fault) Document → Prop
  | unread {f : LexFault} (start : Window.ofFeed F = .error f) : Finishes F (.error [.lexical f])
  | read {w : Window} {rules : List Rule} {ts : List Token} {last : Option Fault} {s : Session}
      (start : Window.ofFeed F = .ok w) (turns : Session.Turns ⟨w, []⟩ rules ts (last, s))
      (count : rules.length + s.collected.length ≤ ts.length) (taken : ts.map .ok <+: F.items)
      (loops : ∀ (depth : Nat) (us : List Token) (v : Window), w.Steps us v → LoopsEnd (nested depth) v) :
      Finishes F (match last with
        | some fault => .error (s.collected ++ [fault])
        | none =>
          if s.collected = [] then .ok ⟨rules, some ⟨w.current.location, s.window.lastStop⟩⟩ else .error s.collected)

/-- Tokens before the end of input that a stream begins with are among its items. -/
theorem Feed.prefix_of_item (hF : F.Ends) (before : Unended ts) (h : ∀ i t, ts[i]? = some t → F.item i = .ok t) :
    ts.map .ok <+: F.items := by
  rw [List.prefix_iff_getElem?]
  intro i hi
  rw [List.length_map] at hi
  have item := h i ts[i] (List.getElem?_eq_getElem hi)
  rw [List.getElem_map]
  cases here : F.items[i]? with
  | some x =>
    unfold Feed.item at item
    rw [here] at item
    exact congrArg some item
  | none =>
    unfold Feed.item at item
    rw [here] at item
    have more := before ts[i] (List.getElem_mem hi)
    rw [hF _ item] at more
    cases more

theorem parseFeed_finishes (hF : F.Ends) : F.Finishes (parseFeed F) := by
  cases start : Window.ofFeed F with
  | error f =>
    have out : parseFeed F = .error [.lexical f] := by
      unfold parseFeed Session.ofFeed
      rw [start]
      rfl
    rw [out]
    exact .unread start
  | ok w =>
    obtain ⟨rs, ts, last, s, turns, out⟩ :=
      Session.exists_turns w.size ⟨w, []⟩ (Window.ends_ofFeed hF start) (Nat.le_refl _)
    have consumed : w.Consumes ts s.window := turns.consumes
    have count := turns.count
    rw [List.length_nil, Nat.zero_add] at count
    have taken : ts.map .ok <+: F.items := Feed.prefix_of_item hF consumed.unended fun i t hi => by
      rw [← Window.item_ofFeed start]
      exact consumed.shows i t hi
    rw [parseFeed_of_window start, out]
    have finishes := Feed.Finishes.read start turns count taken fun depth us v walk =>
      loopsEnd (walk.ends (Window.ends_ofFeed hF start)) depth
    cases last <;> exact finishes

/-- **Reading always ends, whatever is read.**  A text, and a list of tokens in whatever order they stand, are read in
turns that take a token each, until the end of input comes up or a fault ends the reading. -/
theorem parse_finishes (source : Text) (tokens : List Token) (shown : Text) :
    (∃ x, (Feed.ofText source).Finishes x ∧
      parse source = x.mapError fun faults => faults.map (Fault.diagnostic source source)) ∧
    ∃ x, (Feed.ofTokens tokens).Finishes x ∧
      parseTokens tokens shown = x.mapError fun faults => faults.map (Fault.diagnostic shown shown) :=
  ⟨⟨_, parseFeed_finishes (Feed.ends_ofCursor _), rfl⟩, ⟨_, parseFeed_finishes (Feed.ends_ofTokens tokens), rfl⟩⟩

end Cddl
