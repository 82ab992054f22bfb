import Cddl.Proofs.Phrase.Complete
/-!
# Types that are spelled are read

One lemma for each rule of `Spells` about operands, types and arguments.
-/
namespace Cddl

namespace Production

open Reader

variable {n k : Nat} {w u v x : Window} {pre : Location} {t o c : Token} {ts us after : List Token}
  {ty : TypeExpr} {g : Group} {args : Option GenericArgs}

/-! ## Operands -/

theorem gives_type2_mark {nested : Nested} {m : Mark} {x : Type2} (h : w.current.is m = true) :
    (type2 nested).Gives w x v ↔ (marked nested m w.current).Gives w x v := by
  simp only [type2, gives_bind, gives_current, and_assoc, exists_and_left, exists_eq_left', Token.is_iff.1 h]

theorem gives_type2_tag {nested : Nested} {m : Nat} {number : Option Nat} {x : Type2}
    (h : w.current.body = .tag m number) :
    (type2 nested).Gives w x v ↔ (tagged nested m number w.current.location).Gives w x v := by
  simp only [type2, gives_bind, gives_current, and_assoc, exists_and_left, exists_eq_left', h]

theorem gives_literal {nested : Nested} {x : Literal} (h : w.current.body = .value x)
    (move : w.advance = (.ok w.current, v)) :
    (type2 nested).Gives w (.literal x (some w.current.span)) v := by
  simp only [type2, gives_bind, gives_current, and_assoc, exists_and_left, exists_eq_left', h, gives_advance,
    gives_spanFrom, gives_pure]
  exact ⟨_, v, move, by rw [Window.lastStop_of_advance move]; rfl, rfl⟩

/-- What stands before a closing bracket is read with it, and the stretch ends there. -/
theorem gives_bracketed {α : Type} {m : Mark} {item : Reader α} {a : α} {start : Location}
    (make : α → Option Span → Type2) (given : item.Gives u a x) (closing : x.current.is m = true)
    (last : x.advance = (.ok x.current, v)) :
    (do let a ← closedBy m item
        return make a (some (← spanFrom start))).Gives u (make a (some ⟨start, x.current.stop⟩)) v := by
  simp only [gives_bind, gives_spanFrom, gives_pure]
  exact ⟨a, v, gives_closedBy.2 ⟨x, given, closing, last⟩, _, _, ⟨rfl, rfl⟩,
    by rw [Window.lastStop_of_advance last], rfl⟩

/-- A walk over brackets and what is between them. -/
theorem steps_enclosed {o c : Token} (h : w.Steps (o :: (ts ++ [c])) v) : w.current = o ∧
    ∃ u x, w.advance = (.ok o, u) ∧ u.lastStop = o.stop ∧ u.Steps ts x ∧ x.current = c ∧
      x.advance = (.ok x.current, v) := by
  have head := h.head
  obtain ⟨u, move, stop, rest⟩ := h.tail
  obtain ⟨x, inner, last⟩ := rest.split
  cases last with
  | cons last done =>
    cases done
    exact ⟨head, u, x, move, stop, inner, rfl, last⟩

/-- What stands between brackets is read one level further down. -/
theorem given_enclosed {p : Phrase} (inner : Completes p o.stop ts (c :: after)) (hw : w.Ends) (hsize : w.size ≤ n)
    (hlen : 2 ≤ after.length) (opening : o.is .endOfInput = false) (h : w.Steps (o :: (ts ++ [c])) v)
    (hv : v.Shows after) : ∃ m u x, n = m + 1 ∧ w.current = o ∧ w.advance = (.ok o, u) ∧ Given m u x p ∧
      x.current = c ∧ x.advance = (.ok x.current, v) := by
  obtain ⟨rfl, u, x, move, stop, walk, rfl, last⟩ := steps_enclosed h
  have small := Window.size_of_advance hw move opening
  obtain ⟨m, rfl⟩ : ∃ m, n = m + 1 := ⟨n - 1, by omega⟩
  have shows_ := (Window.shows_cons_iff last).2 hv
  exact ⟨m, u, x, rfl, rfl, move,
    inner m u x stop (hw.advance move) (by omega) (by rw [List.length_cons]; omega) walk shows_, rfl, last⟩

/-- Arguments behind a name are read at the same level. -/
theorem given_args (inner : Completes (.args args) t.stop ts after) (hw : w.Ends) (hsize : w.size ≤ n)
    (hlen : 2 ≤ after.length) (name : t.is .name = true) (h : w.Steps (t :: ts) v) (hv : v.Shows after) :
    w.current = t ∧ ∃ u, w.advance = (.ok t, u) ∧ (ifAngle (genericArgs (nested n))).Gives u args v := by
  obtain rfl := h.head
  obtain ⟨u, move, stop, rest⟩ := h.tail
  have small := Window.size_of_advance hw move (not_end_of_is name (by decide))
  exact ⟨rfl, u, move, inner n u v stop (hw.advance move) (by omega) hlen rest hv⟩

theorem completes_literal {x : Literal} (body : t.body = .value x) :
    Completes (.type2 (.literal x (some t.span))) pre [t] after := by
  rintro n w v rfl _ _ _ hs _
  cases hs with
  | cons move done =>
    cases done
    exact gives_literal body move

theorem completes_typename (name : t.is .name = true) (inner : Completes (.args args) t.stop ts after) :
    Completes (.type2 (.typename (identifier t) args (some (.over pre (t :: ts) after)))) pre (t :: ts) after := by
  rintro n w v rfl hw hsize hlen hs hv
  rw [Span.over_of_steps hs (ne_nil_of_two hlen) hv]
  obtain ⟨rfl, u, move, more⟩ := given_args inner hw hsize hlen name hs hv
  simp only [Given, gives_type2_mark name, marked, typename, gives_bind, gives_advance, gives_spanFrom, gives_pure]
  exact ⟨_, u, move, args, v, more, _, _, ⟨rfl, rfl⟩, rfl, rfl⟩

theorem completes_parenthesized (opening : o.is .leftParen = true) (inner : Completes (.type ty) o.stop ts (c :: after))
    (closing : c.is .rightParen = true) :
    Completes (.type2 (.parenthesized ty (some ⟨o.location, c.stop⟩))) pre (o :: (ts ++ [c])) after := by
  rintro n w v rfl hw hsize hlen hs hv
  obtain ⟨m, u, x, rfl, rfl, move, type, rfl, last⟩ :=
    given_enclosed inner hw hsize hlen (not_end_of_is opening (by decide)) hs hv
  refine (gives_type2_mark opening).2 (gives_bind.2 ⟨_, u, gives_advance.2 move, ?_⟩)
  exact gives_bracketed .parenthesized type closing last

theorem completes_map (opening : o.is .leftBrace = true) (inner : Completes (.group g) o.stop ts (c :: after))
    (closing : c.is .rightBrace = true) :
    Completes (.type2 (.map g (some ⟨o.location, c.stop⟩))) pre (o :: (ts ++ [c])) after := by
  rintro n w v rfl hw hsize hlen hs hv
  obtain ⟨m, u, x, rfl, rfl, move, group, rfl, last⟩ :=
    given_enclosed inner hw hsize hlen (not_end_of_is opening (by decide)) hs hv
  refine (gives_type2_mark opening).2 (gives_bind.2 ⟨_, u, gives_advance.2 move, ?_⟩)
  exact gives_bracketed .map group closing last

theorem completes_array (opening : o.is .leftBracket = true) (inner : Completes (.group g) o.stop ts (c :: after))
    (closing : c.is .rightBracket = true) :
    Completes (.type2 (.array g (some ⟨o.location, c.stop⟩))) pre (o :: (ts ++ [c])) after := by
  rintro n w v rfl hw hsize hlen hs hv
  obtain ⟨m, u, x, rfl, rfl, move, group, rfl, last⟩ :=
    given_enclosed inner hw hsize hlen (not_end_of_is opening (by decide)) hs hv
  refine (gives_type2_mark opening).2 (gives_bind.2 ⟨_, u, gives_advance.2 move, ?_⟩)
  exact gives_bracketed .array group closing last

theorem completes_unwrap (opening : o.is .tilde = true) (name : t.is .name = true)
    (inner : Completes (.args args) t.stop ts after) :
    Completes (.type2 (.unwrap (identifier t) args (some (.over pre (o :: t :: ts) after)))) pre (o :: t :: ts)
      after := by
  rintro n w v rfl hw hsize hlen hs hv
  rw [Span.over_of_steps hs (ne_nil_of_two hlen) hv]
  obtain rfl := hs.head
  obtain ⟨u, move, _, rest⟩ := hs.tail
  have small := Window.size_of_advance hw move (not_end_of_is opening (by decide))
  obtain ⟨rfl, x, second, more⟩ := given_args inner (hw.advance move) (show u.size ≤ n by omega) hlen name rest hv
  simp only [Given, gives_type2_mark opening, marked, unwrap, gives_bind, gives_advance, gives_expect, gives_spanFrom,
    gives_pure]
  exact ⟨_, u, move, _, x, ⟨name, second⟩, args, v, more, _, _, ⟨rfl, rfl⟩, rfl, rfl⟩

theorem completes_choiceFromInlineGroup {x : Token} (mark : x.is .ampersand = true) (opening : o.is .leftParen = true)
    (inner : Completes (.group g) o.stop ts (c :: after)) (closing : c.is .rightParen = true) :
    Completes (.type2 (.choiceFromInlineGroup g (some ⟨x.location, c.stop⟩))) pre (x :: o :: (ts ++ [c])) after := by
  rintro n w v rfl hw hsize hlen hs hv
  obtain rfl := hs.head
  obtain ⟨u, move, _, rest⟩ := hs.tail
  have small := Window.size_of_advance hw move (not_end_of_is mark (by decide))
  obtain ⟨m, y, z, rfl, rfl, second, group, rfl, last⟩ :=
    given_enclosed inner (hw.advance move) (show u.size ≤ n by omega) hlen (not_end_of_is opening (by decide)) rest hv
  refine (gives_type2_mark mark).2 (gives_bind.2 ⟨_, u, gives_advance.2 move, ?_⟩)
  refine gives_bind.2 ⟨_, u, gives_at?.2 ⟨rfl, rfl⟩, gives_ite.2 (.inl ⟨opening, ?_⟩)⟩
  exact gives_bind.2 ⟨_, y, gives_advance.2 second, gives_bracketed .choiceFromInlineGroup group closing last⟩

theorem completes_choiceFromGroup {x : Token} (mark : x.is .ampersand = true) (name : t.is .name = true)
    (inner : Completes (.args args) t.stop ts after) :
    Completes (.type2 (.choiceFromGroup (identifier t) args (some (.over pre (x :: t :: ts) after)))) pre (x :: t :: ts)
      after := by
  rintro n w v rfl hw hsize hlen hs hv
  rw [Span.over_of_steps hs (ne_nil_of_two hlen) hv]
  obtain rfl := hs.head
  obtain ⟨u, move, _, rest⟩ := hs.tail
  have small := Window.size_of_advance hw move (not_end_of_is mark (by decide))
  obtain ⟨rfl, y, second, more⟩ := given_args inner (hw.advance move) (show u.size ≤ n by omega) hlen name rest hv
  simp only [Given, gives_type2_mark mark, marked, choiceFrom, gives_bind, gives_advance, gives_at?, gives_ite,
    gives_expect, gives_spanFrom, gives_pure]
  exact ⟨_, u, move, _, _, ⟨rfl, rfl⟩, .inr ⟨by rw [Token.not_is name (by decide)]; exact Bool.false_ne_true, _, y,
    ⟨name, second⟩, args, v, more, _, _, ⟨rfl, rfl⟩, rfl, rfl⟩⟩

theorem completes_tagged {x : Token} {number : Option Nat} (body : x.body = .tag 6 number)
    (opening : o.is .leftParen = true) (inner : Completes (.type ty) o.stop ts (c :: after))
    (closing : c.is .rightParen = true) :
    Completes (.type2 (.tagged (number.map Int.ofNat) ty (some ⟨x.location, c.stop⟩))) pre (x :: o :: (ts ++ [c]))
      after := by
  rintro n w v rfl hw hsize hlen hs hv
  obtain rfl := hs.head
  obtain ⟨u, move, _, rest⟩ := hs.tail
  have small := Window.size_of_advance hw move (Token.not_is_of_tag body)
  obtain ⟨m, y, z, rfl, rfl, second, type, rfl, last⟩ :=
    given_enclosed inner (hw.advance move) (show u.size ≤ n by omega) hlen (not_end_of_is opening (by decide)) rest hv
  simp only [Given, gives_type2_tag body, tagged, gives_ite]
  refine .inr ⟨by decide, gives_bind.2 ⟨_, u, gives_advance.2 move, gives_bind.2 ⟨_, u, gives_at?.2 ⟨rfl, rfl⟩, ?_⟩⟩⟩
  refine gives_ite.2 (.inl ⟨by rw [opening]; rfl, gives_bind.2 ⟨_, y, gives_advance.2 second, ?_⟩⟩)
  exact gives_bracketed (.tagged (number.map Int.ofNat)) type closing last

theorem completes_major {major : Nat} {number : Option Nat} (body : t.body = .tag major number) (bound : major ≤ 7)
    (free : major = 6 → nextIs .leftParen after = false) :
    Completes (.type2 (.major major (number.map Int.ofNat) (some t.span))) pre [t] after := by
  rintro n w v rfl _ _ hlen hs hv
  cases hs with
  | cons move done =>
    cases done
    have none : ¬ (decide (major = 6) && v.current.is .leftParen) = true := by
      rw [Bool.and_eq_true, decide_eq_true_iff, ← nextIs_of_shows (ne_nil_of_two hlen) hv]
      rintro ⟨six, paren⟩
      rw [free six] at paren
      cases paren
    simp only [Given, gives_type2_tag body, tagged, gives_bind, gives_advance, gives_at?, gives_ite, gives_spanFrom,
      gives_pure]
    exact .inr ⟨by omega, _, v, move, _, _, ⟨rfl, rfl⟩, .inr ⟨none, _, _, ⟨rfl, rfl⟩,
      by rw [Window.lastStop_of_advance move]; rfl, rfl⟩⟩

theorem completes_any (mark : t.is .hash = true) : Completes (.type2 (.any (some t.span))) pre [t] after := by
  rintro n w v rfl _ _ _ hs _
  cases hs with
  | cons move done =>
    cases done
    simp only [Given, gives_type2_mark mark, marked, gives_bind, gives_advance, gives_spanFrom, gives_pure]
    exact ⟨_, v, move, _, _, ⟨rfl, rfl⟩, by rw [Window.lastStop_of_advance move]; rfl, rfl⟩

/-! ## Types -/

/-- An operand does not begin with a range token. -/
theorem not_range_of_type2 {x : Type2} (h : Spells (.type2 x) pre (t :: ts) after) {l m : Literal} {i : Bool} :
    t.body ≠ .range l m i := by
  intro body
  cases h with
  | literal value => rw [value] at body; cases body
  | tagged tag => rw [tag] at body; cases body
  | major tag => rw [tag] at body; cases body
  | typename is | parenthesized is | map is | array is | unwrap is | choiceFromInlineGroup is | choiceFromGroup is
  | any is =>
    rw [Token.is_iff.1 is] at body
    cases body

theorem completes_noOperator (free : nextIsOperator after = false) : Completes (.operator none) pre [] after := by
  rintro n w v rfl _ _ hlen hs hv
  cases hs
  have none : operatorSymbol? w.current = none := by
    unfold nextIsOperator at free
    rw [head?_of_shows (ne_nil_of_two hlen) hv] at free
    simpa using free
  simp only [Given, operator?, gives_bind, gives_current, and_assoc, exists_and_left, exists_eq_left', none, gives_pure,
    and_self]

theorem completes_someOperator {symbol : RangeOrControl} {x : Type2} (mark : operatorSymbol? t = some symbol)
    (inner : Completes (.type2 x) t.stop ts after) :
    Completes (.operator (some ⟨symbol, x, some (.over pre (t :: ts) after)⟩)) pre (t :: ts) after := by
  rintro n w v rfl hw hsize hlen hs hv
  rw [Span.over_of_steps hs (ne_nil_of_two hlen) hv]
  obtain rfl := hs.head
  obtain ⟨u, move, stop, rest⟩ := hs.tail
  have small := Window.size_of_advance hw move (not_end_of_operatorSymbol? mark)
  have operand := inner n u v stop (hw.advance move) (by omega) hlen rest hv
  simp only [Given, operator?, gives_bind, gives_current, and_assoc, exists_and_left, exists_eq_left', mark,
    gives_advance, gives_spanFrom, gives_pure]
  exact ⟨_, u, move, x, v, operand, rfl, rfl⟩

theorem completes_range {lower upper : Literal} {inclusive : Bool} (body : t.body = .range lower upper inclusive) :
    Completes (.type1 (rangeType1 t lower upper inclusive t.stop)) pre [t] after := by
  rintro n w v rfl _ _ _ hs _
  cases hs with
  | cons move done =>
    cases done
    simp only [Given, type1, gives_bind, gives_current, and_assoc, exists_and_left, exists_eq_left', body,
      gives_advance, gives_get, gives_pure]
    exact ⟨_, v, move, by rw [Window.lastStop_of_advance move], rfl⟩

theorem completes_operands {x : Type2} {op : Option Operator} (operand : Spells (.type2 x) pre ts (us ++ after))
    (first : Completes (.type2 x) pre ts (us ++ after))
    (second : Completes (.operator op) (stopAfter pre ts) us after) :
    Completes (.type1 ⟨x, op, some (.over pre (ts ++ us) after)⟩) pre (ts ++ us) after := by
  rintro n w v rfl hw hsize hlen hs hv
  rw [Span.over_of_steps hs (ne_nil_of_two hlen) hv]
  obtain ⟨u, walk, walk', hx, stop, hu, small⟩ := first.split operand.unended rfl hw hsize hlen hs hv
  have hop := second n u v stop hu (by omega) hlen walk' hv
  obtain ⟨t, ts, rfl⟩ := List.exists_cons_of_ne_nil (operand.ne_nil rfl)
  obtain rfl := walk.head
  unfold Given type1
  refine gives_bind.2 ⟨_, w, gives_current.2 ⟨rfl, rfl⟩, ?_⟩
  split
  · rename_i body
    exact absurd body (not_range_of_type2 operand)
  · simp only [gives_bind, gives_spanFrom, gives_pure]
    exact ⟨x, u, hx, op, v, hop, _, _, ⟨rfl, rfl⟩, rfl, rfl⟩

theorem completes_noChoices (free : nextIs .typeChoice after = false) : Completes (.choices []) pre [] after := by
  rintro n w v rfl _ _ hlen hs hv k _
  cases hs
  exact gives_atMostWhile_nil ((nextIs_of_shows (ne_nil_of_two hlen) hv).symm.trans free) k

theorem completes_moreChoices {s : Token} {t : Type1} {cs : List TypeChoice} (mark : s.is .typeChoice = true)
    (spelled : Spells (.type1 t) s.stop ts (us ++ after)) (first : Completes (.type1 t) s.stop ts (us ++ after))
    (more : Completes (.choices cs) (stopAfter s.stop ts) us after) :
    Completes (.choices (typeChoice t :: cs)) pre (s :: (ts ++ us)) after := by
  rintro n w v rfl hw hsize hlen hs hv k hk
  obtain ⟨k, x, u, rfl, is, move, item, stop, hu, small, _, size, walk⟩ :=
    given_turn mark (by decide) first spelled.unended hw hsize hk hlen hs hv
  refine gives_atMostWhile_cons is ?_ (more n u v stop hu (by omega) hlen walk hv k small)
  simp only [gives_bind, gives_advance, gives_pure]
  exact ⟨_, x, move, t, u, item, rfl, rfl⟩

theorem completes_type {t : Type1} {cs : List TypeChoice} (spelled : Spells (.type1 t) pre ts (us ++ after))
    (first : Completes (.type1 t) pre ts (us ++ after)) (more : Completes (.choices cs) (stopAfter pre ts) us after) :
    Completes (.type ⟨typeChoice t :: cs, some (.over pre (ts ++ us) after)⟩) pre (ts ++ us) after := by
  rintro n w v rfl hw hsize hlen hs hv
  rw [Span.over_of_steps hs (ne_nil_of_two hlen) hv]
  obtain ⟨u, _, walk, ht, stop, hu, small⟩ := first.split spelled.unended rfl hw hsize hlen hs hv
  have hcs := more n u v stop hu (by omega) hlen walk hv u.size (Nat.le_refl _)
  simp only [Given, typeExpr, moreChoices, gives_bind, gives_current, gives_manyWhile, gives_spanFrom, gives_pure,
    and_assoc, exists_and_left, exists_eq_left']
  exact ⟨t, u, ht, cs, v, hcs, rfl, rfl⟩

/-! ## Arguments -/

theorem completes_noArgs (free : nextIs .leftAngle after = false) : Completes (.args none) pre [] after := by
  rintro n w v rfl _ _ hlen hs hv
  cases hs
  simp only [Given, ifAngle, gives_bind, gives_at?, and_assoc, exists_and_left, exists_eq_left',
    (nextIs_of_shows (ne_nil_of_two hlen) hv).symm.trans free, Bool.false_eq_true, if_false, gives_pure, and_self]

theorem completes_noMoreArgs (free : nextIs .comma after = false) : Completes (.moreArgs []) pre [] after := by
  rintro n w v rfl _ _ hlen hs hv k _
  cases hs
  exact gives_atMostWhile_nil ((nextIs_of_shows (ne_nil_of_two hlen) hv).symm.trans free) k

theorem gives_genericArg {t : Type1} (h : (type1 (nested n)).Gives w t v) :
    (genericArg (nested (n + 1))).Gives w ⟨t, t.span⟩ v := by
  simp only [genericArg, gives_bind, gives_pure]
  exact ⟨t, v, h, rfl, rfl⟩

theorem completes_moreArgs {s : Token} {t : Type1} {as : List GenericArg} (mark : s.is .comma = true)
    (spelled : Spells (.type1 t) s.stop ts (us ++ after)) (first : Completes (.type1 t) s.stop ts (us ++ after))
    (more : Completes (.moreArgs as) (stopAfter s.stop ts) us after) :
    Completes (.moreArgs (⟨t, t.span⟩ :: as)) pre (s :: (ts ++ us)) after := by
  rintro n w v rfl hw hsize hlen hs hv k hk
  obtain ⟨k, x, u, rfl, is, move, item, stop, hu, small, _, size, walk⟩ :=
    given_turn mark (by decide) first spelled.unended hw hsize hk hlen hs hv
  refine gives_atMostWhile_cons is ?_ (more n u v stop hu (by omega) hlen walk hv k small)
  simp only [gives_bind, gives_advance]
  exact ⟨_, x, move, gives_genericArg item⟩

theorem completes_someArgs {t : Type1} {as : List GenericArg} (opening : o.is .leftAngle = true)
    (spelled : Spells (.type1 t) o.stop ts (us ++ c :: after))
    (first : Completes (.type1 t) o.stop ts (us ++ c :: after))
    (more : Completes (.moreArgs as) (stopAfter o.stop ts) us (c :: after)) (closing : c.is .rightAngle = true) :
    Completes (.args (some ⟨⟨t, t.span⟩ :: as, some ⟨o.location, c.stop⟩⟩)) pre (o :: (ts ++ us ++ [c])) after := by
  rintro n w v rfl hw hsize hlen hs hv
  obtain ⟨rfl, u, x, move, stop, walk, rfl, last⟩ := steps_enclosed hs
  have small := Window.size_of_advance hw move (not_end_of_is opening (by decide))
  obtain ⟨m, rfl⟩ : ∃ m, n = m + 1 := ⟨n - 1, by omega⟩
  have hlen' : 2 ≤ (x.current :: after).length := by rw [List.length_cons]; omega
  have shows_ := (Window.shows_cons_iff last).2 hv
  obtain ⟨y, _, walk', ht, stop', hy, smaller⟩ :=
    first.split spelled.unended stop (hw.advance move) (show u.size ≤ m by omega) hlen' walk shows_
  have has := more m y x stop' hy (by omega) hlen' walk' shows_ y.size (Nat.le_refl _)
  simp only [Given, ifAngle, genericArgs, inAngles, gives_bind, gives_at?, gives_ite, gives_expect, gives_manyWhile,
    gives_spanFrom, gives_pure]
  exact ⟨_, _, ⟨rfl, rfl⟩,
    .inl ⟨opening, _, v, ⟨_, v, ⟨_, u, ⟨opening, move⟩, _, y, gives_genericArg ht, as, x, has, _, v,
    ⟨closing, last⟩, rfl, rfl⟩, _, _, ⟨rfl, rfl⟩, by rw [Window.lastStop_of_advance last], rfl⟩, rfl, rfl⟩⟩

end Production
end Cddl
