import Cddl.Proofs.Phrase.Respelled
import Cddl.Proofs.Respan
/-!
# Phrases that are moved

Tokens that are moved down and on together spell what they have spelled, moved as they are.  What stands behind them
need not come along: from the last token of a rule the grammar looks ahead to see whether the rule goes on, and it goes
on neither with the name of another rule nor with the end of input (`spells_moved`).  Nor does it go on with what closes
a bracket, or the left side of a rule with an assignment.
-/
namespace Cddl

open Production

/-! ## Motions -/

/-- How many lines down and how many units on. -/
structure Motion where
  lines : Int
  units : Int

namespace Motion

variable (m : Motion) {t u : Token} {ts us after after' : List Token} {pre l : Location} {k : Mark}

def place (l : Location) : Location := ⟨l.line + m.lines, l.column, l.offset + m.units⟩

def span (s : Span) : Span := ⟨m.place s.start, m.place s.stop⟩

def spans : Option Span → Option Span := Option.map m.span

def token (t : Token) : Token := { t with location := m.place t.location }

theorem shift_place (l : Location) (n : Int) : (m.place l).shift n = m.place (l.shift n) := by
  simp only [place, Location.shift, Location.mk.injEq, true_and]
  omega

theorem advance_place (l : Location) (u : CodeUnit) : (m.place l).advance u = m.place (l.advance u) := by
  unfold Location.advance
  split
  · simp only [place, Location.mk.injEq, true_and]
    omega
  · exact m.shift_place l 1

theorem stop_token (t : Token) : (m.token t).stop = m.place t.stop := m.shift_place t.location t.text.length

theorem stopAfter_map (pre : Location) (ts : List Token) :
    stopAfter (m.place pre) (ts.map m.token) = m.place (stopAfter pre ts) := by
  induction ts generalizing pre with
  | nil => rfl
  | cons t ts ih => rw [List.map_cons, stopAfter, stop_token, ih, stopAfter]

theorem spans_between (t u : Token) :
    m.spans (some ⟨t.location, u.stop⟩) = some ⟨(m.token t).location, (m.token u).stop⟩ := by
  rw [stop_token]
  rfl

theorem spans_token (t : Token) : m.spans (some t.span) = some (m.token t).span := m.spans_between t t

theorem identifier_token (t : Token) : (identifier t).respan m.spans = identifier (m.token t) := by
  have text : (m.token t).text = t.text := rfl
  unfold identifier
  rw [text, ← m.spans_token]
  split
  · rfl
  split <;> rfl

theorem uintAt?_token (stop : Location) (t : Token) : uintAt? (m.place stop) (m.token t) = uintAt? stop t := by
  have same : (m.place t.location).offset = (m.place stop).offset ↔ t.location.offset = stop.offset := by
    simp only [place]
    omega
  simp only [uintAt?, token, same]

theorem rangeType1_token (t : Token) (lower upper : Literal) (inclusive : Bool) :
    (rangeType1 t lower upper inclusive t.stop).respan m.spans =
      rangeType1 (m.token t) lower upper inclusive (m.token t).stop := by
  simp only [rangeType1, Type1.respan, Type2.respan, respanOperator, Operator.respan, stop_token]
  simp only [token, shift_place]
  rfl

/-- To move no line down and no unit on is to leave things where they are. -/
theorem token_zero (t : Token) : (⟨0, 0⟩ : Motion).token t = t := by
  simp only [token, place, Int.add_zero]

theorem map_token_zero (ts : List Token) : ts.map (⟨0, 0⟩ : Motion).token = ts :=
  (List.map_congr_left (g := id) fun t _ => token_zero t).trans (List.map_id ts)

theorem place_zero (l : Location) : (⟨0, 0⟩ : Motion).place l = l := by simp only [place, Int.add_zero]

theorem spans_zero : (⟨0, 0⟩ : Motion).spans = id := by
  funext s
  cases s with
  | none => rfl
  | some s => simp only [spans, span, place, Int.add_zero, Option.map_some, id]

end Motion

/-! ## What stands behind -/

/-- The marks that no phrase goes on with from its last token. -/
def limiting : List Mark :=
  [.name, .endOfInput, .rightParen, .rightBrace, .rightBracket, .assign, .extendType, .extendGroup]

/-- Whether no phrase goes on with a token. -/
def Token.limits (t : Token) : Bool := limiting.any t.is

/-- What stands behind a phrase, and what stands behind it once it is moved: the same up to a token with which no phrase
goes on, on either side. -/
inductive Beyond (m : Motion) : List Token → List Token → Prop
  | limit {t t' : Token} {ts ts' : List Token} (first : t.limits = true) (first' : t'.limits = true) :
      Beyond m (t :: ts) (t' :: ts')
  | token {t : Token} {ts ts' : List Token} (more : Beyond m ts ts') : Beyond m (t :: ts) (m.token t :: ts')

/-- The next token is moved along. -/
def Heads (m : Motion) (ts us : List Token) : Prop := ∃ t, ts.head? = some t ∧ us.head? = some (m.token t)

variable {m : Motion} {t : Token} {ts us after after' : List Token} {pre : Location} {k : Mark}

theorem Token.exists_mark_of_limits (h : t.limits = true) : ∃ k ∈ limiting, t.is k = true := List.any_eq_true.1 h

theorem Token.limits_of_is (h : t.is k = true) (hk : k ∈ limiting) : t.limits = true := List.any_eq_true.2 ⟨k, hk, h⟩

theorem Token.not_is_of_limits (h : t.limits = true) (hk : k ∉ limiting) : t.is k = false := by
  obtain ⟨m, limit, is⟩ := Token.exists_mark_of_limits h
  exact Token.not_is is fun same => hk (same ▸ limit)

namespace Heads

theorem cons : Heads m (t :: ts) (m.token t :: us) := ⟨t, rfl, rfl⟩

theorem append (h : Heads m after after') : Heads m (ts ++ after) (ts.map m.token ++ after') := by
  cases ts with
  | nil => exact h
  | cons t ts => exact .cons

theorem of_ne_nil (h : ts ≠ []) : Heads m (ts ++ after) (ts.map m.token ++ after') := by
  obtain ⟨t, ts, rfl⟩ := List.exists_cons_of_ne_nil h
  exact .cons

/-- The stretch of a phrase is moved with its tokens, and with the next token if it has none. -/
theorem spans_over (h : Heads m (ts ++ after) (ts.map m.token ++ after')) (pre : Location) :
    m.spans (some (.over pre ts after)) = some (.over (m.place pre) (ts.map m.token) after') := by
  obtain ⟨t, first, first'⟩ := h
  unfold Span.over
  rw [first, first', m.stopAfter_map]
  rfl

end Heads

/-- The stretch of some tokens is moved with them. -/
theorem Motion.spans_over (m : Motion) (pre : Location) (after after' : List Token) (h : ts ≠ []) :
    m.spans (some (.over pre ts after)) = some (.over (m.place pre) (ts.map m.token) after') :=
  Heads.spans_over (.of_ne_nil h) pre

namespace Beyond

variable (h : Beyond m after after')
include h

theorem append : ∀ ts : List Token, Beyond m (ts ++ after) (ts.map m.token ++ after')
  | [] => h
  | _ :: ts => .token (append ts)

theorem nextIs (hk : k ∉ limiting) : nextIs k after' = Cddl.nextIs k after := by
  cases h with
  | limit first first' => exact (Token.not_is_of_limits first' hk).trans (Token.not_is_of_limits first hk).symm
  | token => rfl

theorem nextIsOperator : nextIsOperator after' = Cddl.nextIsOperator after := by
  have none {t : Token} (first : t.limits = true) : (operatorSymbol? t).isSome = false := by
    rw [operatorSymbol?, Token.not_is_of_limits first (by decide), Token.not_is_of_limits first (by decide)]
    rfl
  cases h with
  | limit first first' => exact (none first').trans (none first).symm
  | token => rfl

theorem nextIsKeyEnd : nextIsKeyEnd after' = Cddl.nextIsKeyEnd after := by
  simp only [Cddl.nextIsKeyEnd, h.nextIs (k := .colon) (by decide), h.nextIs (k := .arrow) (by decide),
    h.nextIs (k := .cut) (by decide)]

theorem beginsOccurrence : beginsOccurrence after' = Cddl.beginsOccurrence after := by
  have none {t : Token} {ts : List Token} (first : t.limits = true) : Cddl.beginsOccurrence (t :: ts) = false := by
    have none : ∀ k ∈ limiting, k ≠ .optional ∧ k ≠ .asterisk ∧ k ≠ .plus := by decide
    obtain ⟨k, limit, is⟩ := Token.exists_mark_of_limits first
    exact not_beginsOccurrence_of_is is (none k limit)
  cases h with
  | limit first first' => exact (none first').trans (none first).symm
  | token more =>
    rw [beginsOccurrence_cons, beginsOccurrence_cons, more.nextIs (by decide)]
    rfl

theorem beginsJoined (stop : Location) : beginsJoined (m.place stop) after' = Cddl.beginsJoined stop after := by
  have none {t : Token} {stop : Location} (first : t.limits = true) : (uintAt? stop t).isSome = false := by
    obtain ⟨k, _, is⟩ := Token.exists_mark_of_limits first
    rw [uintAt?, Token.is_iff.1 is]
    rfl
  cases h with
  | limit first first' => exact (none first').trans (none first).symm
  | token => exact congrArg Option.isSome (m.uintAt?_token stop _)

theorem beginsGroupEntry : beginsGroupEntry (m.token t :: after') = Cddl.beginsGroupEntry (t :: after) := by
  cases h with
  | limit first first' =>
    have apart {t : Token} (first : t.limits = true) :
        t.is .asterisk = false ∧ t.is .colon = false ∧ t.is .arrow = false ∧ t.is .cut = false :=
      ⟨Token.not_is_of_limits first (by decide), Token.not_is_of_limits first (by decide),
        Token.not_is_of_limits first (by decide), Token.not_is_of_limits first (by decide)⟩
    rw [beginsGroupEntry_of_not_is (apart first), beginsGroupEntry_of_not_is (apart first')]
    rfl
  | token => rfl

end Beyond

/-! ## Phrases -/

/-- A phrase with other places. -/
def Phrase.respan (f : Option Span → Option Span) : Phrase → Phrase
  | .type2 t => .type2 (t.respan f)
  | .operator o => .operator (respanOperator f o)
  | .type1 t => .type1 (t.respan f)
  | .choices cs => .choices (respanTypeChoices f cs)
  | .type t => .type (t.respan f)
  | .args a => .args (respanArgs f a)
  | .moreArgs as => .moreArgs (respanGenericArgs f as)
  | .entry e => .entry (e.respan f)
  | .entries es => .entries (respanListedEntries f es)
  | .groupChoice c => .groupChoice (c.respan f)
  | .groupChoices cs => .groupChoices (respanGroupChoices f cs)
  | .group g => .group (g.respan f)

/-- Whether a phrase stands between brackets only. -/
def Phrase.enclosed : Phrase → Bool
  | .entries _ | .groupChoice _ | .groupChoices _ | .group _ => true
  | _ => false

/-- Of a phrase that may end a rule, nothing is asked of the next token. -/
theorem Heads.of_open {p : Phrase} (free : p.enclosed = false) (h : p.enclosed = true) : Heads m ts us :=
  absurd (free.symm.trans h) Bool.false_ne_true

theorem SpellsOccurrence.moved {oc : Option Occurrence} (h : SpellsOccurrence oc ts after)
    (beyond : Beyond m after after') :
    SpellsOccurrence (oc.map (Occurrence.respan m.spans)) (ts.map m.token) after' := by
  have place {o : Occur} {t u : Token} {us : List Token}
      (h : SpellsOccurrence (some ⟨o, some ⟨(m.token t).location, (m.token u).stop⟩⟩) us after') :
      SpellsOccurrence (some (Occurrence.respan m.spans ⟨o, some ⟨t.location, u.stop⟩⟩)) us after' := by
    rwa [Occurrence.respan, m.spans_between]
  have joined {t : Token} (free : beginsJoined t.stop after = false) :
      beginsJoined (m.token t).stop after' = false := by
    rw [m.stop_token, beyond.beginsJoined, free]
  have upper {t u : Token} {n : Int} (upper : uintAt? t.stop u = some n) :
      uintAt? (m.token t).stop (m.token u) = some n := by
    rw [m.stop_token, m.uintAt?_token, upper]
  cases h with
  | none free => exact .none (beyond.beginsOccurrence.trans free)
  | optional mark => exact place (.optional mark)
  | oneOrMore mark => exact place (.oneOrMore mark)
  | zeroOrMore mark free => exact place (.zeroOrMore mark (joined free))
  | upTo mark last => exact place (.upTo mark (upper last))
  | atLeast lower mark free => exact place (.atLeast lower mark (joined free))
  | fromTo lower mark last => exact place (.fromTo lower mark (upper last))

theorem SpellsArrow.moved {cut : Bool} (h : SpellsArrow cut ts) : SpellsArrow cut (ts.map m.token) := by
  cases h with
  | plain arrow => exact .plain arrow
  | cut mark arrow => exact .cut mark arrow

end Cddl
