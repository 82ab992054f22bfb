import Cddl.Grammar.Request
import Cddl.Proofs.Termination
/-!
# Where a session stands

A session over a list of tokens stands at an index of what is read from the list, whatever it has been asked for and
however that came out: its window shows the token at that index and the one after it, and no request leads back
(`session_stands`).
-/
namespace Cddl

open Production

variable {tokens ts : List Token} {w v : Window} {t : Token} {i : Nat} {s : Session}

/-! ## Standing at an index -/

/-- The token at an index of what is read from a list: its own tokens, and then the end of input over and over. -/
def tokenAt (tokens : List Token) (i : Nat) : Token :=
  tokens[i]?.getD (.endAt ((tokens.getLast?.map Token.location).getD .start))

theorem Feed.item_tokenAt (tokens : List Token) (i : Nat) : (Feed.ofTokens tokens).item i = .ok (tokenAt tokens i) :=
  Feed.item_ofTokens tokens i

theorem tokenAt_of_length_le (h : tokens.length ≤ i) : (tokenAt tokens i).is .endOfInput = true := by
  unfold tokenAt
  rw [List.getElem?_eq_none h]
  rfl

namespace Window

/-- A window at an index of what is read from a list of tokens, with the end of the token before; at the first index
that is where the first token starts. -/
structure StandsAt (w : Window) (tokens : List Token) (i : Nat) : Prop where
  current : w.current = tokenAt tokens i
  upcoming : w.upcoming = tokenAt tokens (i + 1)
  lastStop : w.lastStop = match i with
    | 0 => (tokenAt tokens 0).location
    | before + 1 => (tokenAt tokens before).stop
  ahead : ∀ n, w.feed.item n = .ok (tokenAt tokens (i + 2 + n))

theorem exists_standsAt (tokens : List Token) :
    ∃ w, Window.ofFeed (.ofTokens tokens) = .ok w ∧ w.StandsAt tokens 0 := by
  let feed := Feed.ofTokens tokens
  have first : feed.pull.1 = .ok (tokenAt tokens 0) := by rw [Feed.pull_fst, Feed.item_tokenAt]
  have second : feed.pull.2.pull.1 = .ok (tokenAt tokens 1) := by
    rw [Feed.pull_fst, Feed.pull_item, Feed.item_tokenAt]
  have start : Window.ofFeed feed =
      .ok ⟨tokenAt tokens 0, tokenAt tokens 1, feed.pull.2.pull.2, (tokenAt tokens 0).location⟩ := by
    unfold Window.ofFeed
    simp only [first, second, bind, Except.bind, pure, Except.pure]
  refine ⟨_, start, rfl, rfl, rfl, fun n => ?_⟩
  rw [Feed.pull_item, Feed.pull_item, Feed.item_tokenAt]
  congr 2
  omega

namespace StandsAt

theorem advance (here : w.StandsAt tokens i) (move : w.advance = (.ok t, v)) : v.StandsAt tokens (i + 1) := by
  obtain ⟨next, current, feed, lastStop⟩ := advance_eq_ok move
  refine ⟨by rw [current, here.upcoming], ?_, by rw [lastStop, here.current], fun n => ?_⟩
  · rw [here.ahead, Except.ok.injEq] at next
    exact next.symm
  · rw [feed, Feed.pull_item, here.ahead]
    congr 2
    omega

/-- Every token is there to be moved to. -/
theorem not_stuck (here : w.StandsAt tokens i) {f : LexFault} : w.advance ≠ (.error f, v) := by
  intro stuck
  have := advance_eq_error stuck
  rw [here.ahead] at this
  cases this

theorem steps (here : w.StandsAt tokens i) (walk : w.Steps ts v) :
    v.StandsAt tokens (i + ts.length) ∧ ts = (List.range' i ts.length).map (tokenAt tokens) := by
  induction walk generalizing i with
  | nil => exact ⟨here, rfl⟩
  | @cons w u v ts move _ ih =>
    obtain ⟨there, passed⟩ := ih (here.advance move)
    refine ⟨?_, ?_⟩
    · rw [List.length_cons, Nat.add_comm ts.length 1, ← Nat.add_assoc]
      exact there
    · rw [List.length_cons, List.range'_succ, List.map_cons, ← passed, here.current]

/-- What stands ahead of the window ends. -/
theorem ends (here : w.StandsAt tokens i) : w.Ends := by
  intro t last
  have beyond := here.ahead (w.feed.items.length + tokens.length)
  have constant : w.feed.item (w.feed.items.length + tokens.length) = w.feed.last := by
    unfold Feed.item
    rw [List.getElem?_eq_none (Nat.le_add_right _ _)]
    rfl
  rw [constant, last, Except.ok.injEq] at beyond
  rw [beyond]
  exact tokenAt_of_length_le (by omega)

end StandsAt

/-- A window has moved on from one index to another, by one step over each token between them. -/
structure MovesOn (w : Window) (tokens : List Token) (i j : Nat) (v : Window) : Prop where
  forward : i ≤ j
  walk : w.Steps ((List.range' i (j - i)).map (tokenAt tokens)) v

namespace StandsAt

theorem movesOn_steps (here : w.StandsAt tokens i) (walk : w.Steps ts v) : w.MovesOn tokens i (i + ts.length) v := by
  refine ⟨Nat.le_add_right _ _, ?_⟩
  rw [Nat.add_sub_cancel_left, ← (here.steps walk).2]
  exact walk

theorem movesOn (here : w.StandsAt tokens i) (walk : w.Steps ts v) :
    ∃ j, v.StandsAt tokens j ∧ w.MovesOn tokens i j v := ⟨_, (here.steps walk).1, here.movesOn_steps walk⟩

theorem movesOn_of_reaches {α : Type} {x : Except Fault α × Window} (here : w.StandsAt tokens i) (out : w.Reaches x) :
    ∃ j, x.2.StandsAt tokens j ∧ w.MovesOn tokens i j x.2 := by
  cases out with
  | result walk => exact here.movesOn walk
  | mismatch walk => exact here.movesOn walk
  | parenthesis walk => exact here.movesOn walk
  | lexical walk stuck => exact absurd stuck (here.steps walk).1.not_stuck

theorem movesOn_of_consumes (here : w.StandsAt tokens i) (consumed : w.Consumes ts v) :
    ∃ j, v.StandsAt tokens j ∧ w.MovesOn tokens i j v := by
  cases consumed with
  | moved walk => exact here.movesOn walk
  | stuck walk _ move => exact absurd move (here.steps walk).1.not_stuck

end StandsAt
end Window

/-! ## Requests -/

theorem Production.walks_closed {α : Type} {production : Nested → Reader α}
    (h : ∀ nested : Nested, nested.Walks → (production nested).Walks) : (closed production).Walks := by
  intro w
  rw [run_closed]
  exact h _ (walks_nested _) w

/-- Whatever part is read, the reading is a walk over tokens. -/
theorem Part.walks_reader : ∀ p : Part, p.reader.Walks
  | .rule => .map (walks_closed fun _ => walks_rule)
  | .genericParams => .map walks_genericParams
  | .genericArgs => .map (walks_closed fun _ => walks_genericArgs)
  | .type => .map (walks_closed fun _ hn => walks_typeExpr (walks_type1 hn))
  | .type1 => .map (walks_closed fun _ => walks_type1)
  | .type2 => .map (walks_closed fun _ => walks_type2)
  | .group => .map (walks_closed fun _ => walks_group)
  | .groupChoice => .map (walks_closed fun _ => walks_groupChoice)
  | .groupEntry => .map (walks_closed fun _ => walks_groupEntry)
  | .occurrence => .map walks_occurrence?

namespace Session

/-- What a request does to a session that stands at an index: it leads it on to another, and no request but that for a
document adds to what is collected. -/
structure Serves (s : Session) (tokens : List Token) (i j : Nat) (request : Request) (t : Session) : Prop where
  moves : s.window.MovesOn tokens i j t.window
  keeps : s.collected <+: t.collected
  quiet : request ≠ .document → t.collected = s.collected

theorem serves_ask (here : s.window.StandsAt tokens i) (request : Request) :
    ∃ j, (s.ask request).2.window.StandsAt tokens j ∧ s.Serves tokens i j request (s.ask request).2 := by
  cases request with
  | part p =>
    obtain ⟨j, there, moves⟩ := here.movesOn_of_reaches (p.walks_reader s.window)
    exact ⟨j, there, moves, List.prefix_refl _, fun _ => rfl⟩
  | document =>
    obtain ⟨rs, ts, last, t, turns, out⟩ := exists_turns s.window.size s here.ends (Nat.le_refl _)
    have kept := collected_rules s.window.size s
    have asked : (s.ask .document).2 = t := by
      show (rules s.window.size s).2 = t
      rw [out]
    rw [out] at kept
    rw [asked]
    obtain ⟨j, there, moves⟩ := here.movesOn_of_consumes turns.consumes
    exact ⟨j, there, moves, kept, fun other => absurd rfl other⟩

theorem after_cons (s : Session) (request : Request) (requests : List Request) :
    s.after (request :: requests) = (s.ask request).2.after requests := rfl

theorem exists_indices : ∀ (requests : List Request) {s : Session} {i : Nat}, s.window.StandsAt tokens i →
    ∃ index : Nat → Nat, index 0 = i ∧
      (∀ k ≤ requests.length, (s.after (requests.take k)).window.StandsAt tokens (index k)) ∧
      ∀ k request, requests[k]? = some request →
        (s.after (requests.take k)).Serves tokens (index k) (index (k + 1)) request (s.after (requests.take (k + 1)))
  | [], s, i, here => by
    refine ⟨fun _ => i, rfl, fun k le => ?_, fun k request h => by simp at h⟩
    rw [List.take_nil]
    exact here
  | request :: requests, s, i, here => by
    obtain ⟨j, there, serves⟩ := serves_ask here request
    obtain ⟨index, start, stands, rest⟩ := exists_indices requests there
    refine ⟨fun k => k.casesOn i index, rfl, fun k le => ?_, fun k r h => ?_⟩
    · cases k with
      | zero => exact here
      | succ k =>
        rw [List.take_succ_cons, after_cons]
        exact stands k (Nat.le_of_succ_le_succ le)
    · cases k with
      | zero =>
        rw [List.getElem?_cons_zero, Option.some.injEq] at h
        subst h
        rw [← start] at serves
        exact serves
      | succ k =>
        simp only [List.take_succ_cons, after_cons]
        rw [List.getElem?_cons_succ] at h
        exact rest k r h

end Session

/-- **A session never loses its place.**  Over any list of tokens, and through any requests, failed ones among them,
there is an index for each state between requests.  The window shows the tokens at that index and the next, and the end
of the token before; from one state to the next it has moved over each token between the two indices, one at a time; and
only a document that is asked for adds to what is collected. -/
theorem session_stands (tokens : List Token) (requests : List Request) :
    ∃ s, Session.ofFeed (.ofTokens tokens) = .ok s ∧ s.collected = [] ∧ ∃ index : Nat → Nat, index 0 = 0 ∧
      (∀ k ≤ requests.length, (s.after (requests.take k)).window.StandsAt tokens (index k)) ∧
      ∀ k request, requests[k]? = some request →
        (s.after (requests.take k)).Serves tokens (index k) (index (k + 1)) request
          (s.after (requests.take (k + 1))) := by
  obtain ⟨w, start, here⟩ := Window.exists_standsAt tokens
  refine ⟨⟨w, []⟩, ?_, rfl, Session.exists_indices requests here⟩
  unfold Session.ofFeed
  rw [start]
  rfl

end Cddl
