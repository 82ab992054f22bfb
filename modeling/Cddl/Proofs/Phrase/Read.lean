import Cddl.Proofs.Phrase
/-!
# What is read is spelled

Every production that succeeds has walked over tokens that spell its result (`reads_type1`, `reads_group`,
`reads_entry`).  The bound on the depth of nesting is the number of tokens in front of the window: each bracket takes
one, so no level that is entered is the last.
-/
namespace Cddl

/-- A walk from one window to another has met a phrase, whatever comes after it. -/
def Spelled (p : Phrase) (w v : Window) : Prop :=
  ∃ ts, w.Steps ts v ∧ ∀ after, after ≠ [] → v.Shows after → Spells p w.lastStop ts after

/-- Reading from a window with at most `n` tokens in front of it meets the phrase that the result stands for. -/
def ReadsUpTo {α : Type} (n : Nat) (r : Reader α) (p : α → Phrase) : Prop :=
  ∀ w a v, w.Ends → w.size ≤ n → r.Gives w a v → Spelled (p a) w v

/-- The readers of what is nested read what they are named for. -/
structure Nested.Reads (nested : Nested) (n : Nat) : Prop where
  type1 : ReadsUpTo n nested.type1 .type1
  group : ReadsUpTo n nested.group .group

theorem nextIs_of_shows {w : Window} {m : Mark} : ∀ {ts : List Token}, ts ≠ [] → w.Shows ts →
    nextIs m ts = w.current.is m
  | [], h, _ => absurd rfl h
  | t :: ts, _, h => by
    rw [h.current]
    rfl

theorem head?_of_shows {w : Window} : ∀ {ts : List Token}, ts ≠ [] → w.Shows ts → ts.head? = some w.current
  | [], h, _ => absurd rfl h
  | t :: ts, _, h => by
    rw [h.current]
    rfl

theorem Span.over_of_steps {w v : Window} {ts after : List Token} (h : w.Steps ts v) (hne : after ≠ [])
    (hv : v.Shows after) : Span.over w.lastStop ts after = ⟨w.current.location, v.lastStop⟩ := by
  unfold Span.over
  rw [head?_of_shows (List.append_ne_nil_of_right_ne_nil _ hne) (h.shows hv), h.lastStop]
  rfl

/-- A type begins where it is read from. -/
theorem Spells.start_of_type1 {w v : Window} {t : Type1} {ts after : List Token}
    (h : Spells (.type1 t) w.lastStop ts after) (hne : after ≠ []) (hs : w.Steps ts v) (hv : v.Shows after)
    (l : Location) : (t.span.map Span.start).getD l = w.current.location := by
  rw [h.span_type1, Span.over_of_steps hs hne hv]
  rfl

theorem nextIs_of_steps {w v : Window} {m : Mark} {ts : List Token} (h : w.Steps ts v) (hne : ts ≠ []) :
    nextIs m ts = w.current.is m := by
  cases h with
  | nil => exact absurd rfl hne
  | cons => rfl

namespace Spelled

variable {p : Phrase} {w u v : Window}

theorem steps (h : Spelled p w v) : ∃ ts, w.Steps ts v ∧ Unended ts ∧ (p.takesToken = true → ts ≠ []) := by
  obtain ⟨ts, hs, hp⟩ := h
  have shown := hp _ (List.cons_ne_nil _ _) v.shows_pair
  exact ⟨ts, hs, shown.unended, shown.ne_nil⟩

theorem ends (h : Spelled p w v) (hw : w.Ends) : v.Ends := by
  obtain ⟨ts, hs, _⟩ := h
  exact hs.ends hw

theorem size_le (h : Spelled p w v) (hw : w.Ends) : v.size ≤ w.size := by
  obtain ⟨ts, hs, hts, _⟩ := h.steps
  have := hs.size hw hts
  omega

theorem size_lt (h : Spelled p w v) (hw : w.Ends) (hp : p.takesToken = true) : v.size < w.size := by
  obtain ⟨ts, hs, hts, hne⟩ := h.steps
  have := hs.size hw hts
  have := List.length_pos_iff.2 (hne hp)
  omega

end Spelled

/-! ## Lists of alternatives -/

namespace Production

open Reader

variable {α β : Type} {n : Nat} {w v : Window}

/-- A loop over items that begin with a separator has met their list, if the list is spelled item by item. -/
theorem spelled_atMostWhile {sep : Mark} {item : Reader β} {f : α → β} {q : α → Phrase} {many : List β → Phrase}
    (hsep : sep ≠ .endOfInput) (nil : ∀ pre after, nextIs sep after = false → Spells (many []) pre [] after)
    (cons : ∀ pre s a bs ts us after, s.is sep = true → Spells (q a) s.stop ts (us ++ after) →
      Spells (many bs) (stopAfter s.stop ts) us after → Spells (many (f a :: bs)) pre (s :: (ts ++ us)) after)
    (hitem : ∀ w b v, w.Ends → w.size ≤ n → item.Gives w b v → ∃ a, b = f a ∧ Spelled (q a) w v) :
    ∀ k w bs v, w.Ends → w.size ≤ n + 1 → w.size ≤ k →
      (atMostWhile (·.is sep) (do let _ ← advance; item) k).Gives w bs v → Spelled (many bs) w v := by
  intro k
  induction k with
  | zero =>
    intro w bs v _ _ hk h
    unfold atMostWhile at h
    obtain ⟨rfl, rfl⟩ := gives_pure.1 h
    refine ⟨[], .nil, fun after hne hshows => nil _ _ ?_⟩
    rw [nextIs_of_shows hne hshows]
    exact Token.not_is (Window.current_of_size (by omega)) hsep.symm
  | succ k ih =>
    intro w bs v hw hn hk h
    unfold atMostWhile at h
    obtain ⟨t, u, hcur, h⟩ := gives_bind.1 h
    obtain ⟨rfl, rfl⟩ := gives_current.1 hcur
    rcases gives_ite.1 h with ⟨hc, h⟩ | ⟨hc, h⟩
    · obtain ⟨b, u₂, hb, h⟩ := gives_bind.1 h
      obtain ⟨bs', u₃, hbs, h⟩ := gives_bind.1 h
      obtain ⟨rfl, rfl⟩ := gives_pure.1 h
      obtain ⟨_, u₁, hadv, hb⟩ := gives_bind.1 hb
      have move := gives_advance.1 hadv
      have small := Window.size_of_advance hw move (not_end_of_is hc hsep)
      have hu₁ := hw.advance move
      obtain ⟨a, rfl, first⟩ := hitem u₁ b u₂ hu₁ (by omega) hb
      have hle := first.size_le hu₁
      obtain ⟨ts, hts, spell⟩ := first
      obtain ⟨us, hus, more⟩ := ih u₂ bs' u₃ (hts.ends hu₁) (by omega) (by omega) hbs
      rw [Window.eq_current_of_advance move] at move
      refine ⟨w.current :: (ts ++ us), .cons move (hts.trans hus), fun after hne hshows => ?_⟩
      have first := spell (us ++ after) (List.append_ne_nil_of_right_ne_nil _ hne) (hus.shows hshows)
      have rest := more after hne hshows
      rw [Window.lastStop_of_advance move] at first
      rw [hts.lastStop, Window.lastStop_of_advance move] at rest
      exact cons _ _ a bs' ts us after hc first rest
    · obtain ⟨rfl, rfl⟩ := gives_pure.1 h
      refine ⟨[], .nil, fun after hne hshows => nil _ _ ?_⟩
      rw [nextIs_of_shows hne hshows]
      simpa using hc

theorem reads_moreChoices {r : Reader Type1} (hr : ReadsUpTo n r .type1) :
    ReadsUpTo (n + 1) (moreChoices r) .choices := by
  intro w cs v hw hn h
  unfold moreChoices manyWhile at h
  obtain ⟨_, _, hget, h⟩ := gives_bind.1 h
  obtain ⟨rfl, rfl⟩ := gives_get.1 hget
  refine spelled_atMostWhile (f := typeChoice) (q := .type1) (n := n) (by decide) (fun _ _ => .noChoices)
    (fun _ _ _ _ _ _ _ => .moreChoices) ?_ _ w cs v hw hn (Nat.le_refl _) h
  intro w b v hw hn h
  obtain ⟨t, u, ht, h⟩ := gives_bind.1 h
  obtain ⟨rfl, rfl⟩ := gives_pure.1 h
  exact ⟨t, rfl, hr w t u hw hn ht⟩

theorem reads_typeExpr {r : Reader Type1} (hr : ReadsUpTo n r .type1) : ReadsUpTo n (typeExpr r) .type := by
  intro w ty v hw hn h
  simp only [typeExpr, gives_bind, gives_current, gives_spanFrom, gives_pure, and_assoc, exists_and_left,
    exists_eq_left'] at h
  obtain ⟨t, u, ht, cs, v, hcs, rfl, rfl⟩ := h
  have first := hr w t u hw hn ht
  have small := first.size_lt hw rfl
  obtain ⟨ts, hts, first⟩ := first
  obtain ⟨us, hus, more⟩ := reads_moreChoices hr u cs v (hts.ends hw) (by omega) hcs
  refine ⟨ts ++ us, hts.trans hus, fun after hne hshows => ?_⟩
  have rest := more after hne hshows
  rw [hts.lastStop] at rest
  rw [← Span.over_of_steps (hts.trans hus) hne hshows]
  exact .type (first _ (List.append_ne_nil_of_right_ne_nil _ hne) (hus.shows hshows)) rest

/-! ## Arguments -/

theorem reads_args {nested : Nested} (hn : ReadsUpTo n nested.type1 .type1) :
    ReadsUpTo (n + 1) (ifAngle (genericArgs nested)) .args := by
  intro w a v hw hsize h
  simp only [ifAngle, genericArgs, inAngles, manyWhile, gives_bind, gives_at?, gives_get, gives_ite, gives_expect,
    gives_spanFrom, gives_pure, and_assoc, exists_and_left, exists_eq_left'] at h
  rcases h with ⟨hc, _, _, _, ⟨_, _, ⟨o, w₁, move, t', w₂, ht, as, w₃, has, hclose,
    c, v, last, rfl, rfl⟩, rfl, rfl⟩, rfl, rfl⟩ | ⟨hc, rfl, rfl⟩
  · have small := Window.size_of_advance hw move (not_end_of_is hc (by decide))
    have hw₁ := hw.advance move
    simp only [genericArg, gives_bind, gives_pure] at ht
    obtain ⟨t, w₂, ht, rfl, rfl⟩ := ht
    have first := hn w₁ t w₂ hw₁ (by omega) ht
    have le := first.size_le hw₁
    obtain ⟨ts, hts, first⟩ := first
    have hw₂ := hts.ends hw₁
    have more : Spelled (.moreArgs as) w₂ w₃ := by
      refine spelled_atMostWhile (f := fun t : Type1 => ⟨t, t.span⟩) (q := .type1) (n := n) (by decide)
        (fun _ _ => .noMoreArgs) (fun _ _ _ _ _ _ _ => .moreArgs) ?_ _ w₂ as w₃ hw₂ (by omega) (Nat.le_refl _) has
      intro w b v hw hsize h
      simp only [genericArg, gives_bind, gives_pure] at h
      obtain ⟨t, u, ht, rfl, rfl⟩ := h
      exact ⟨t, rfl, hn w t u hw hsize ht⟩
    obtain ⟨us, hus, more⟩ := more
    obtain rfl := Window.eq_current_of_advance move
    obtain rfl := Window.eq_current_of_advance last
    refine ⟨w.current :: (ts ++ us ++ [w₃.current]), .cons move ((hts.trans hus).trans (.one last)), ?_⟩
    intro after hne hshows
    have hshows₃ := (Window.shows_cons_iff last).2 hshows
    have rest := more _ (List.cons_ne_nil _ _) hshows₃
    have first := first _ (List.append_ne_nil_of_right_ne_nil _ (List.cons_ne_nil _ _)) (hus.shows hshows₃)
    rw [hts.lastStop, Window.lastStop_of_advance move] at rest
    rw [Window.lastStop_of_advance move] at first
    rw [Window.lastStop_of_advance last]
    exact .someArgs hc first rest hclose
  · refine ⟨[], .nil, fun after hne hshows => .noArgs ?_⟩
    rw [nextIs_of_shows hne hshows]
    simpa using hc

/-! ## Operands -/

theorem gives_closedBy {m : Mark} {r : Reader α} {a : α} :
    (closedBy m r).Gives w a v ↔ ∃ u, r.Gives w a u ∧ u.current.is m = true ∧ u.advance = (.ok u.current, v) := by
  simp only [closedBy, gives_bind, gives_expect, gives_pure, and_assoc]
  constructor
  · rintro ⟨a', u, hr, _, _, hc, move, rfl, rfl⟩
    obtain rfl := Window.eq_current_of_advance move
    exact ⟨u, hr, hc, move⟩
  · rintro ⟨u, hr, hc, move⟩
    exact ⟨a, u, hr, _, _, hc, move, rfl, rfl⟩

/-- A walk from an opening mark to the closing one has met what stands between them. -/
theorem steps_closed {r : Reader α} {q : α → Phrase} {a : α} {m : Mark} {u : Window} (hr : ReadsUpTo n r q)
    (hw : w.Ends) (hsize : w.size ≤ n + 1) (opening : w.current.is .endOfInput = false)
    (move : w.advance = (.ok w.current, u)) (h : (closedBy m r).Gives u a v) :
    ∃ ts c, w.Steps (w.current :: (ts ++ [c])) v ∧ c.is m = true ∧ v.lastStop = c.stop ∧
      ∀ after, after ≠ [] → v.Shows after → Spells (q a) w.current.stop ts (c :: after) := by
  obtain ⟨x, ha, closing, last⟩ := gives_closedBy.1 h
  have small := Window.size_of_advance hw move opening
  obtain ⟨ts, hts, inner⟩ := hr u a x (hw.advance move) (by omega) ha
  refine ⟨ts, x.current, .cons move (hts.trans (.one last)), closing, Window.lastStop_of_advance last, ?_⟩
  intro after hne hshows
  have inner := inner _ (List.cons_ne_nil _ _) ((Window.shows_cons_iff last).2 hshows)
  rwa [Window.lastStop_of_advance move] at inner

variable {nested : Nested}

/-- Names and arguments behind some tokens that have been walked over. -/
theorem spelled_args {u : Window} {a : Option GenericArgs} {ts : List Token} {p : Span → Phrase} (hn : nested.Reads n)
    (hw : w.Ends) (hsize : w.size ≤ n + 1) (front : w.Steps ts u) (hts : Unended ts)
    (h : (ifAngle (genericArgs nested)).Gives u a v)
    (rule : ∀ us after, Spells (.args a) (stopAfter w.lastStop ts) us after →
      Spells (p (.over w.lastStop (ts ++ us) after)) w.lastStop (ts ++ us) after) :
    Spelled (p ⟨w.current.location, v.lastStop⟩) w v := by
  have small := front.size hw hts
  obtain ⟨us, hus, args⟩ := reads_args hn.type1 u a v (front.ends hw) (by omega) h
  refine ⟨ts ++ us, front.trans hus, fun after hafter hshows => ?_⟩
  have args := args after hafter hshows
  rw [front.lastStop] at args
  rw [← Span.over_of_steps (front.trans hus) hafter hshows]
  exact rule us after args

/-- An operand between brackets, the first of which is the current token. -/
theorem spelled_bracketed {r : Reader α} {q : α → Phrase} {m m' : Mark} {a : Type2} (make : α → Option Span → Type2)
    (hr : ReadsUpTo n r q) (hw : w.Ends) (hsize : w.size ≤ n + 1) (is : w.current.is m = true) (hm : m ≠ .endOfInput)
    (h : (do let _ ← advance
             let b ← closedBy m' r
             return make b (some (← spanFrom w.current.location))).Gives w a v)
    (rule : ∀ b ts c after, Spells (q b) w.current.stop ts (c :: after) → c.is m' = true →
      Spells (.type2 (make b (some ⟨w.current.location, c.stop⟩))) w.lastStop (w.current :: (ts ++ [c])) after) :
    Spelled (.type2 a) w v := by
  simp only [gives_bind, gives_advance, gives_spanFrom, gives_pure, exists_and_left, exists_eq_left', and_assoc] at h
  obtain ⟨_, u, move, b, v, h, rfl, rfl⟩ := h
  obtain rfl := Window.eq_current_of_advance move
  obtain ⟨ts, c, hs, closing, hstop, inner⟩ := steps_closed hr hw hsize (not_end_of_is is hm) move h
  refine ⟨_, hs, fun after hne hshows => ?_⟩
  rw [hstop]
  exact rule b ts c after (inner after hne hshows) closing

theorem spelled_tagged {major : Nat} {number : Option Nat} {a : Type2} (hn : nested.Reads n) (hw : w.Ends)
    (hsize : w.size ≤ n + 1) (body : w.current.body = .tag major number)
    (h : (tagged nested major number w.current.location).Gives w a v) : Spelled (.type2 a) w v := by
  simp only [tagged, gives_bind, gives_at?, gives_ite, gives_advance, gives_spanFrom, gives_pure, and_assoc,
    exists_and_left, exists_eq_left', Bool.and_eq_true, decide_eq_true_eq] at h
  rcases h with ⟨_, h⟩ | ⟨bound, _, u, move, h⟩
  · exact absurd h not_gives_fail
  obtain rfl := Window.eq_current_of_advance move
  have opening : w.current.is .endOfInput = false := Token.not_is_of_tag body
  have small := Window.size_of_advance hw move opening
  rcases h with ⟨rfl, paren, _, x, second, ty, v, hty, rfl, rfl⟩ | ⟨free, rfl, rfl⟩
  · obtain rfl := Window.eq_current_of_advance second
    obtain ⟨ts, c, hs, closing, hstop, inner⟩ :=
      steps_closed (fun w t v hw hsize => reads_typeExpr hn.type1 w t v hw hsize)
        (hw.advance move) (by omega) (not_end_of_is paren (by decide)) second hty
    refine ⟨_, .cons move hs, fun after hne hshows => ?_⟩
    rw [hstop]
    exact .tagged body paren (inner after hne hshows) closing
  · refine ⟨_, .one move, fun after hne hshows => ?_⟩
    rw [Window.lastStop_of_advance move]
    refine .major body (by omega) fun hsix => ?_
    rw [nextIs_of_shows hne hshows]
    simpa [hsix] using free

theorem spelled_marked {m : Mark} {a : Type2} (hn : nested.Reads n) (hw : w.Ends) (hsize : w.size ≤ n + 1)
    (body : w.current.body = .mark m) (h : (marked nested m w.current).Gives w a v) : Spelled (.type2 a) w v := by
  have is : w.current.is m = true := Token.is_iff.2 body
  unfold marked at h
  split at h
  case h_1 =>
    simp only [typename, gives_bind, gives_advance, gives_spanFrom, gives_pure, exists_and_left, exists_eq_left',
      and_assoc] at h
    obtain ⟨_, u, move, args, v, h, rfl, rfl⟩ := h
    obtain rfl := Window.eq_current_of_advance move
    exact spelled_args (p := fun s => .type2 (.typename (identifier w.current) args (some s))) hn hw hsize (.one move)
      (by simp [not_end_of_is is]) h (fun _ _ => .typename is)
  case h_2 =>
    exact spelled_bracketed .parenthesized (reads_typeExpr hn.type1) hw hsize is (by decide) h
      fun _ _ _ _ type closing => .parenthesized is type closing
  case h_3 =>
    exact spelled_bracketed .map hn.group hw hsize is (by decide) h fun _ _ _ _ group closing => .map is group closing
  case h_4 =>
    exact spelled_bracketed .array hn.group hw hsize is (by decide) h
      fun _ _ _ _ group closing => .array is group closing
  case h_5 =>
    simp only [unwrap, gives_bind, gives_advance, gives_expect, gives_spanFrom, gives_pure, exists_and_left,
      exists_eq_left', and_assoc] at h
    obtain ⟨_, u, move, name, _, x, second, args, v, h, rfl, rfl⟩ := h
    obtain rfl := Window.eq_current_of_advance move
    obtain rfl := Window.eq_current_of_advance second
    exact spelled_args (p := fun s => .type2 (.unwrap (identifier u.current) args (some s))) hn hw hsize
      (.cons move (.one second)) (by simp [not_end_of_is is, not_end_of_is name]) h (fun _ _ => .unwrap is name)
  case h_6 =>
    simp only [choiceFrom, gives_bind, gives_advance, gives_at?, gives_ite, gives_expect, gives_spanFrom, gives_pure,
      exists_and_left, exists_eq_left', and_assoc] at h
    obtain ⟨_, u, move, h⟩ := h
    obtain rfl := Window.eq_current_of_advance move
    have small := Window.size_of_advance hw move (not_end_of_is is (by decide))
    rcases h with ⟨paren, _, x, second, g, v, hg, rfl, rfl⟩ | ⟨_, name, _, x, second, args, v, h, rfl, rfl⟩
    · obtain rfl := Window.eq_current_of_advance second
      obtain ⟨ts, c, hs, closing, hstop, inner⟩ := steps_closed hn.group (hw.advance move) (by omega)
        (not_end_of_is paren (by decide)) second hg
      refine ⟨_, .cons move hs, fun after hne hshows => ?_⟩
      rw [hstop]
      exact .choiceFromInlineGroup is paren (inner after hne hshows) closing
    · obtain rfl := Window.eq_current_of_advance second
      exact spelled_args (p := fun s => .type2 (.choiceFromGroup (identifier u.current) args (some s))) hn hw hsize
        (.cons move (.one second)) (by simp [not_end_of_is is, not_end_of_is name]) h
        (fun _ _ => .choiceFromGroup is name)
  case h_7 =>
    simp only [gives_bind, gives_advance, gives_spanFrom, gives_pure, exists_and_left, exists_eq_left', and_assoc] at h
    obtain ⟨_, u, move, rfl, rfl⟩ := h
    obtain rfl := Window.eq_current_of_advance move
    refine ⟨_, .one move, fun after hne hshows => ?_⟩
    rw [Window.lastStop_of_advance move]
    exact .any is
  case h_8 => exact absurd h not_gives_fail

theorem reads_type2 (hn : nested.Reads n) : ReadsUpTo (n + 1) (type2 nested) .type2 := by
  intro w a v hw hsize h
  unfold type2 at h
  obtain ⟨_, _, hcur, h⟩ := gives_bind.1 h
  obtain ⟨rfl, rfl⟩ := gives_current.1 hcur
  split at h
  case h_1 body =>
    simp only [gives_bind, gives_advance, gives_spanFrom, gives_pure, exists_and_left, exists_eq_left', and_assoc] at h
    obtain ⟨_, u, move, rfl, rfl⟩ := h
    obtain rfl := Window.eq_current_of_advance move
    refine ⟨_, .one move, fun after hne hshows => ?_⟩
    rw [Window.lastStop_of_advance move]
    exact .literal body
  case h_2 body => exact spelled_tagged hn hw hsize body h
  case h_3 => exact absurd h not_gives_fail
  case h_4 body => exact spelled_marked hn hw hsize body h

/-! ## Types -/

theorem reads_operator (hn : nested.Reads n) : ReadsUpTo (n + 2) (operator? nested) .operator := by
  intro w o v hw hsize h
  unfold operator? at h
  obtain ⟨_, _, hcur, h⟩ := gives_bind.1 h
  obtain ⟨rfl, rfl⟩ := gives_current.1 hcur
  split at h
  case h_1 symbol mark =>
    simp only [gives_bind, gives_advance, gives_spanFrom, gives_pure, exists_and_left, exists_eq_left', and_assoc] at h
    obtain ⟨_, u, move, x, v, hx, rfl, rfl⟩ := h
    obtain rfl := Window.eq_current_of_advance move
    have small := Window.size_of_advance hw move (not_end_of_operatorSymbol? mark)
    obtain ⟨ts, hts, inner⟩ := reads_type2 hn u x v (hw.advance move) (by omega) hx
    refine ⟨_, .cons move hts, fun after hne hshows => ?_⟩
    have inner := inner after hne hshows
    rw [Window.lastStop_of_advance move] at inner
    rw [← Span.over_of_steps (.cons move hts) hne hshows]
    exact .someOperator mark inner
  case h_2 none =>
    obtain ⟨rfl, rfl⟩ := gives_pure.1 h
    refine ⟨[], .nil, fun after hne hshows => .noOperator ?_⟩
    unfold nextIsOperator
    rw [head?_of_shows hne hshows, Option.any_some, none]
    rfl

theorem reads_type1 (hn : nested.Reads n) : ReadsUpTo (n + 1) (type1 nested) .type1 := by
  intro w a v hw hsize h
  unfold type1 at h
  obtain ⟨_, _, hcur, h⟩ := gives_bind.1 h
  obtain ⟨rfl, rfl⟩ := gives_current.1 hcur
  split at h
  case h_1 body =>
    simp only [gives_bind, gives_advance, gives_get, gives_pure, exists_and_left, exists_eq_left', and_assoc] at h
    obtain ⟨_, u, move, rfl, rfl⟩ := h
    obtain rfl := Window.eq_current_of_advance move
    refine ⟨_, .one move, fun after hne hshows => ?_⟩
    rw [Window.lastStop_of_advance move]
    exact .range body
  case h_2 =>
    simp only [gives_bind, gives_spanFrom, gives_pure, exists_and_left, exists_eq_left', and_assoc] at h
    obtain ⟨x, u, hx, o, v, ho, rfl, rfl⟩ := h
    have first := reads_type2 hn w x u hw hsize hx
    have small := first.size_le hw
    obtain ⟨ts, hts, first⟩ := first
    obtain ⟨us, hus, second⟩ := reads_operator hn u o v (hts.ends hw) (by omega) ho
    refine ⟨ts ++ us, hts.trans hus, fun after hne hshows => ?_⟩
    have second := second after hne hshows
    rw [hts.lastStop] at second
    rw [← Span.over_of_steps (hts.trans hus) hne hshows]
    exact .operands (first _ (List.append_ne_nil_of_right_ne_nil _ hne) (hus.shows hshows)) second

/-! ## Occurrences -/

/-- A walk from one window to another has met an occurrence, or stays where none is. -/
def SpelledOccurrence (oc : Option Occurrence) (w v : Window) : Prop :=
  ∃ ts, w.Steps ts v ∧ Unended ts ∧ ∀ after, after ≠ [] → v.Shows after → SpellsOccurrence oc ts after

theorem beginsOccurrence_of_shows {ts : List Token} (hne : ts ≠ []) (h : w.Shows ts)
    (free : beginsOccurrence ts = true) : startsOccurrence w.current = true ∨
      (w.current.isUint = true ∧ w.upcoming.is .asterisk = true) := by
  cases ts with
  | nil => exact absurd rfl hne
  | cons t ts =>
    obtain rfl := h.current
    cases ts with
    | nil => exact .inl (by simpa [beginsOccurrence, nextIs] using free)
    | cons u ts =>
      obtain rfl := h.upcoming
      simpa [beginsOccurrence, nextIs] using free

theorem beginsJoined_of_shows {ts : List Token} {stop : Location} (hne : ts ≠ []) (h : w.Shows ts) :
    beginsJoined stop ts = (uintAt? stop w.current).isSome := by
  unfold beginsJoined
  rw [head?_of_shows hne h]
  rfl

theorem gives_joinedUint {before : Token} {n : Option Int} (h : (joinedUint before).Gives w n v) :
    (n = none ∧ uintAt? before.stop w.current = none ∧ w = v) ∨
      ∃ m, n = some m ∧ uintAt? before.stop w.current = some m ∧ w.advance = (.ok w.current, v) := by
  unfold joinedUint at h
  obtain ⟨_, _, hcur, h⟩ := gives_bind.1 h
  obtain ⟨rfl, rfl⟩ := gives_current.1 hcur
  split at h
  case h_1 m joined =>
    simp only [gives_bind, gives_advance, gives_pure] at h
    obtain ⟨_, u, move, rfl, rfl⟩ := h
    obtain rfl := Window.eq_current_of_advance move
    exact .inr ⟨m, rfl, joined, move⟩
  case h_2 apart =>
    obtain ⟨rfl, rfl⟩ := gives_pure.1 h
    exact .inl ⟨rfl, apart, rfl⟩

/-- An asterisk and the bound behind it, after a lower bound or none. -/
theorem spelled_asterisk {lower : Option Int} {o : Occur} (h : (asterisk lower).Gives w o v) :
    ∃ upper ts, w.Steps (w.current :: ts) v ∧ Unended ts ∧
      (o = if lower = none && upper = none then .zeroOrMore else .between lower upper) ∧
      ((upper = none ∧ ts = [] ∧ ∀ after, after ≠ [] → v.Shows after → beginsJoined w.current.stop after = false) ∨
        ∃ u m, upper = some m ∧ ts = [u] ∧ uintAt? w.current.stop u = some m) := by
  simp only [asterisk, gives_bind, gives_advance, gives_pure] at h
  obtain ⟨_, u, move, upper, x, hupper, rfl, rfl⟩ := h
  obtain rfl := Window.eq_current_of_advance move
  rcases gives_joinedUint hupper with ⟨rfl, apart, rfl⟩ | ⟨m, rfl, joined, second⟩
  · refine ⟨none, [], .one move, unended_nil, rfl, .inl ⟨rfl, rfl, fun after hne hshows => ?_⟩⟩
    rw [beginsJoined_of_shows hne hshows, apart]
    rfl
  · refine ⟨some m, [u.current], .cons move (.one second), ?_, rfl, .inr ⟨u.current, m, rfl, rfl, joined⟩⟩
    simp [Token.not_is_of_value (body_of_uintAt? joined).1]

theorem spelled_occur {o : Option Occur} (h : occur?.Gives w o v) :
    SpelledOccurrence (o.map (⟨·, some ⟨w.current.location, v.lastStop⟩⟩)) w v := by
  unfold occur? at h
  obtain ⟨_, _, hcur, h⟩ := gives_bind.1 h
  obtain ⟨rfl, rfl⟩ := gives_current.1 hcur
  split at h
  case h_1 body =>
    simp only [gives_bind, gives_advance, gives_pure] at h
    obtain ⟨_, u, move, rfl, rfl⟩ := h
    obtain rfl := Window.eq_current_of_advance move
    have mark := Token.is_iff.2 body
    refine ⟨_, .one move, by simp [not_end_of_is mark], fun after _ _ => ?_⟩
    rw [Window.lastStop_of_advance move]
    exact .optional mark
  case h_2 body =>
    simp only [gives_bind, gives_advance, gives_pure] at h
    obtain ⟨_, u, move, rfl, rfl⟩ := h
    obtain rfl := Window.eq_current_of_advance move
    have mark := Token.is_iff.2 body
    refine ⟨_, .one move, by simp [not_end_of_is mark], fun after _ _ => ?_⟩
    rw [Window.lastStop_of_advance move]
    exact .oneOrMore mark
  case h_3 body =>
    simp only [gives_bind, gives_pure] at h
    obtain ⟨o, u, ho, rfl, rfl⟩ := h
    have mark := Token.is_iff.2 body
    obtain ⟨upper, ts, hs, hts, rfl, ⟨rfl, rfl, free⟩ | ⟨x, m, rfl, rfl, joined⟩⟩ := spelled_asterisk ho
    · refine ⟨_, hs, by simp [not_end_of_is mark], fun after hne hshows => ?_⟩
      rw [hs.lastStop]
      exact .zeroOrMore mark (free after hne hshows)
    · refine ⟨_, hs, by simpa [not_end_of_is mark] using hts, fun after _ _ => ?_⟩
      rw [hs.lastStop]
      exact .upTo mark joined
  case h_4 n body =>
    simp only [gives_bind, gives_upcoming, gives_ite, gives_advance, gives_pure, and_assoc, exists_and_left,
      exists_eq_left'] at h
    rcases h with ⟨star, _, x, move, o, y, ho, rfl, rfl⟩ | ⟨nostar, rfl, rfl⟩
    · obtain rfl := Window.eq_current_of_advance move
      rw [← (Window.advance_eq_ok move).2.1] at star
      have value : w.current.is .endOfInput = false := Token.not_is_of_value body
      obtain ⟨upper, ts, hs, hts, rfl, ⟨rfl, rfl, free⟩ | ⟨z, m, rfl, rfl, joined⟩⟩ := spelled_asterisk ho
      · refine ⟨_, .cons move hs, by simp [value, not_end_of_is star], fun after hne hshows => ?_⟩
        rw [hs.lastStop]
        exact .atLeast body star (free after hne hshows)
      · refine ⟨_, .cons move hs, by simpa [value, not_end_of_is star] using hts, fun after _ _ => ?_⟩
        rw [hs.lastStop]
        exact .fromTo body star joined
    · refine ⟨[], .nil, unended_nil, fun after hne hshows => .none (Bool.eq_false_iff.2 fun begins => ?_)⟩
      rcases beginsOccurrence_of_shows hne hshows begins with h | h
      · simp [startsOccurrence, Token.is, body] at h
      · exact nostar h.2
  case h_5 other₁ other₂ other₃ other₄ =>
    obtain ⟨rfl, rfl⟩ := gives_pure.1 h
    refine ⟨[], .nil, unended_nil, fun after hne hshows => .none (Bool.eq_false_iff.2 fun begins => ?_)⟩
    rcases beginsOccurrence_of_shows hne hshows begins with h | ⟨h, _⟩
    · simp only [startsOccurrence, Bool.or_eq_true, Token.is_iff] at h
      rcases h with (h | h) | h
      · exact other₁ h
      · exact other₃ h
      · exact other₂ h
    · unfold Token.isUint at h
      split at h
      case h_1 n body => exact other₄ n body
      case h_2 => exact absurd h Bool.false_ne_true

theorem reads_occurrence {oc : Option Occurrence} (h : occurrence?.Gives w oc v) : SpelledOccurrence oc w v := by
  unfold occurrence? at h
  obtain ⟨_, _, hcur, h⟩ := gives_bind.1 h
  obtain ⟨rfl, rfl⟩ := gives_current.1 hcur
  obtain ⟨o, u, ho, h⟩ := gives_bind.1 h
  have spelled := spelled_occur ho
  cases o with
  | none =>
    obtain ⟨rfl, rfl⟩ := gives_pure.1 h
    exact spelled
  | some o =>
    simp only [gives_bind, gives_spanFrom, gives_pure, and_assoc, exists_and_left, exists_eq_left'] at h
    obtain ⟨rfl, rfl⟩ := h
    exact spelled

/-! ## Entries -/

theorem spelled_arrow {cut : Bool} (h : arrow.Gives w cut v) : ∃ as, w.Steps as v ∧ SpellsArrow cut as := by
  simp only [arrow, gives_bind, gives_at?, gives_ite, gives_advance, gives_expect, gives_pure, and_assoc,
    exists_and_left, exists_eq_left'] at h
  rcases h with ⟨mark, _, u, move, is, _, x, second, rfl, rfl⟩ | ⟨_, is, _, u, move, rfl, rfl⟩
  · obtain rfl := Window.eq_current_of_advance move
    obtain rfl := Window.eq_current_of_advance second
    exact ⟨_, .cons move (.one second), .cut mark is⟩
  · obtain rfl := Window.eq_current_of_advance move
    exact ⟨_, .one move, .plain is⟩

theorem gives_keyedEntry {start : Location} {oc : Option Occurrence} {key : Option MemberKey} {ty : TypeExpr}
    {e : GroupEntry} : (keyedEntry start oc key ty).Gives w e v ↔
      .keyed ⟨oc, key, ty, some ⟨start, w.lastStop⟩⟩ (some ⟨start, w.lastStop⟩) = e ∧ w = v := by
  simp only [keyedEntry, gives_bind, gives_spanFrom, gives_pure, and_assoc, exists_and_left, exists_eq_left']

variable {u : Window} {oc : Option Occurrence} {e : GroupEntry}

theorem spelled_parenthesizedEntry (hn : nested.Reads n) (hw : w.Ends) (hsize : w.size ≤ n + 1)
    (occurrence : SpelledOccurrence oc w u) (opening : u.current.is .leftParen = true)
    (h : (parenthesizedEntry nested w.current.location oc).Gives u e v) : Spelled (.entry e) w v := by
  obtain ⟨os, hos, hun, occurrence⟩ := occurrence
  have small := hos.size hw hun
  have hu := hos.ends hw
  simp only [parenthesizedEntry, gives_bind, gives_advance, gives_at?, gives_ite, gives_spanFrom, gives_pure,
    gives_keyedEntry, and_assoc, exists_and_left, exists_eq_left', Bool.or_eq_true, not_or, Bool.not_eq_true] at h
  obtain ⟨_, x, move, g, y, hg, h⟩ := h
  obtain rfl := Window.eq_current_of_advance move
  obtain ⟨ts, c, hts, closing, hstop, inner⟩ := steps_closed hn.group hu (by omega)
    (not_end_of_is opening (by decide)) move hg
  rcases h with ⟨_, cut, z, harrow, ty, v, hty, rfl, rfl⟩ | ⟨noArrow, noCut, rfl, rfl⟩
  · obtain ⟨as, has, arrow⟩ := spelled_arrow harrow
    have closed := hts.size hu (by simp [not_end_of_is opening, not_end_of_is closing,
      (inner _ (List.cons_ne_nil _ _) y.shows_pair).unended])
    have pointed := has.size (hts.ends hu) arrow.unended
    obtain ⟨us, hus, type⟩ := reads_typeExpr (reads_type1 hn) z ty v (has.ends (hts.ends hu)) (by omega) hty
    have walk := hos.trans (hts.trans (has.trans hus))
    refine ⟨_, walk, fun after hne hshows => ?_⟩
    have type := type after hne hshows
    have inner := inner _ (by simp [hne]) (has.shows (hus.shows hshows))
    have begin := occurrence _ (by simp) (hts.shows (has.shows (hus.shows hshows)))
    rw [has.lastStop, hstop] at type
    rw [← Span.over_of_steps walk hne hshows]
    simp only [List.cons_append, List.append_assoc, List.nil_append] at begin ⊢
    exact .enclosedEntry begin opening inner closing arrow type
  · have walk := hos.trans hts
    refine ⟨_, walk, fun after hne hshows => ?_⟩
    have begin := occurrence _ (by simp) (hts.shows hshows)
    have inner := inner after hne hshows
    rw [← Span.over_of_steps walk hne hshows]
    rw [← nextIs_of_shows hne hshows] at noArrow noCut
    simp only [List.cons_append, List.append_assoc, List.nil_append] at begin
    exact .inlineEntry begin opening inner closing ⟨noArrow, noCut⟩

theorem spelled_keylessEntry {t : Type1} {x : Window} (hn : nested.Reads n) (hw : w.Ends) (hsize : w.size ≤ n + 1)
    (occurrence : SpelledOccurrence oc w u) (start : u.current.is .leftParen = false) (first : Spelled (.type1 t) u x)
    (free : x.current.is .colon = false ∧ x.current.is .arrow = false ∧ x.current.is .cut = false)
    (h : (keylessEntry nested w.current.location oc t).Gives x e v) : Spelled (.entry e) w v := by
  obtain ⟨os, hos, hun, occurrence⟩ := occurrence
  have small := hos.size hw hun
  have hu := hos.ends hw
  have smaller := first.size_lt hu rfl
  obtain ⟨ts, hts, first⟩ := first
  have keyEnd {after : List Token} (hne : after ≠ []) (hshows : x.Shows after) : nextIsKeyEnd after = false := by
    unfold nextIsKeyEnd
    rw [nextIs_of_shows hne hshows, nextIs_of_shows hne hshows, nextIs_of_shows hne hshows, free.1, free.2.1, free.2.2]
    rfl
  unfold keylessEntry at h
  obtain ⟨_, _, hat, h⟩ := gives_bind.1 h
  obtain ⟨rfl, rfl⟩ := gives_at?.1 hat
  split at h
  case h_1 ident a s hx ho hsole =>
    simp only [gives_bind, gives_spanFrom, gives_pure, and_assoc, exists_and_left, exists_eq_left'] at h
    obtain ⟨rfl, rfl⟩ := h
    have walk := hos.trans hts
    refine ⟨_, walk, fun after hne hshows => ?_⟩
    have first := first after hne hshows
    have begin := occurrence _ (by simp [hne]) (hts.shows hshows)
    obtain ⟨operand, operator, span⟩ := t
    subst hx ho
    rw [hos.lastStop] at first
    rw [← Span.over_of_steps walk hne hshows]
    rw [← nextIs_of_shows hne hshows] at hsole
    exact .namedEntry begin first (keyEnd hne hshows) hsole
  case h_2 other =>
    simp only [gives_bind, gives_spanFrom, gives_keyedEntry, and_assoc, exists_and_left, exists_eq_left'] at h
    obtain ⟨cs, v, hcs, rfl, rfl⟩ := h
    obtain ⟨us, hus, more⟩ := reads_moreChoices (reads_type1 hn) x cs v (hts.ends hu) (by omega) hcs
    have walk := hos.trans (hts.trans hus)
    refine ⟨_, walk, fun after hne hshows => ?_⟩
    have hne' : us ++ after ≠ [] := List.append_ne_nil_of_right_ne_nil _ hne
    have shows' := hus.shows hshows
    have more := more after hne hshows
    have first := first _ hne' shows'
    have begin := occurrence _ (List.append_ne_nil_of_right_ne_nil _ hne') (hts.shows shows')
    have key := first.start_of_type1 hne' hts shows' w.current.location
    rw [(hos.trans hts).lastStop] at more
    rw [hos.lastStop] at first
    rw [key, ← Span.over_of_steps walk hne hshows, ← Span.over_of_steps (hts.trans hus) hne hshows, hos.lastStop]
    refine .keylessEntry begin first ((nextIs_of_steps hts (first.ne_nil rfl)).trans start) (keyEnd hne' shows') ?_ more
    rintro ident a s s' rfl
    rw [nextIs_of_shows hne' shows']
    cases hc : x.current.is .typeChoice with
    | true => rfl
    | false => exact absurd hc (other ident a s rfl rfl)

theorem spelled_typeEntry (hn : nested.Reads n) (hw : w.Ends) (hsize : w.size ≤ n + 1)
    (occurrence : SpelledOccurrence oc w u) (start : u.current.is .leftParen = false)
    (h : (typeEntry nested w.current.location oc).Gives u e v) : Spelled (.entry e) w v := by
  simp only [typeEntry, gives_bind, gives_advance, gives_at?, gives_ite, gives_spanFrom, gives_keyedEntry,
    and_assoc, exists_and_left, exists_eq_left', Bool.or_eq_true, not_or, Bool.not_eq_true] at h
  have begun := occurrence
  obtain ⟨os, hos, hun, occurrence⟩ := occurrence
  have small := hos.size hw hun
  have hu := hos.ends hw
  obtain ⟨t, x, ht, h⟩ := h
  have hfirst := reads_type1 hn u t x hu (by omega) ht
  have smaller := hfirst.size_lt hu rfl
  have hx := hfirst.ends hu
  rcases h with ⟨mark, key, x', hkey, _, y, move, ty, v, hty, rfl, rfl⟩ |
    ⟨noColon, ⟨_, cut, y, harrow, ty, v, hty, rfl, rfl⟩ | ⟨noArrow, noCut, h⟩⟩
  · obtain ⟨ts, hts, first⟩ := hfirst
    unfold colonKey at hkey
    split at hkey
    case h_2 => exact absurd hkey not_gives_fail
    case h_1 made =>
      obtain ⟨rfl, rfl⟩ := gives_pure.1 hkey
      obtain rfl := Window.eq_current_of_advance move
      have marked := Window.size_of_advance hx move (not_end_of_is mark (by decide))
      obtain ⟨us, hus, type⟩ := reads_typeExpr (reads_type1 hn) y ty v (hx.advance move) (by omega) hty
      have walk := hos.trans (hts.trans (.cons move hus))
      refine ⟨_, walk, fun after hne hshows => ?_⟩
      have type := type after hne hshows
      have shows' := (Window.Steps.cons move hus).shows hshows
      have first := first _ (by simp) shows'
      have begin := occurrence _ (by simp) (hts.shows shows')
      rw [Window.lastStop_of_advance move] at type
      rw [hos.lastStop] at first
      rw [← Span.over_of_steps walk hne hshows]
      exact .colonEntry begin first ((nextIs_of_steps hts (first.ne_nil rfl)).trans start) mark made type
  · obtain ⟨ts, hts, first⟩ := hfirst
    obtain ⟨as, has, arrow⟩ := spelled_arrow harrow
    have pointed := has.size hx arrow.unended
    obtain ⟨us, hus, type⟩ := reads_typeExpr (reads_type1 hn) y ty v (has.ends hx) (by omega) hty
    have walk := hos.trans (hts.trans (has.trans hus))
    refine ⟨_, walk, fun after hne hshows => ?_⟩
    have type := type after hne hshows
    have first := first _ (by simp [hne]) (has.shows (hus.shows hshows))
    have begin := occurrence _ (by simp [hne]) (hts.shows (has.shows (hus.shows hshows)))
    have key := first.start_of_type1 (by simp [hne]) hts (has.shows (hus.shows hshows)) w.current.location
    rw [(hos.trans (hts.trans has)).lastStop] at type
    rw [hos.lastStop] at first
    rw [key, ← Span.over_of_steps walk hne hshows,
      ← Span.over_of_steps (hts.trans has) (by simp [hne]) (hus.shows hshows), hos.lastStop]
    exact .arrowEntry begin first ((nextIs_of_steps hts (first.ne_nil rfl)).trans start) arrow type
  · exact spelled_keylessEntry hn hw hsize begun start hfirst ⟨noColon, noArrow, noCut⟩ h

theorem reads_entry (hn : nested.Reads n) : ReadsUpTo (n + 1) (groupEntry nested) .entry := by
  intro w e v hw hsize h
  unfold groupEntry at h
  obtain ⟨_, _, hcur, h⟩ := gives_bind.1 h
  obtain ⟨rfl, rfl⟩ := gives_current.1 hcur
  obtain ⟨oc, u, hoc, h⟩ := gives_bind.1 h
  obtain ⟨_, _, hat, h⟩ := gives_bind.1 h
  obtain ⟨rfl, rfl⟩ := gives_at?.1 hat
  rcases gives_ite.1 h with ⟨opening, h⟩ | ⟨start, h⟩
  · exact spelled_parenthesizedEntry hn hw hsize (reads_occurrence hoc) opening h
  · exact spelled_typeEntry hn hw hsize (reads_occurrence hoc) (Bool.not_eq_true _ ▸ start) h

/-! ## Groups -/

theorem nextEndsChoice_of_shows {ts : List Token} (hne : ts ≠ []) (h : w.Shows ts) :
    nextEndsChoice ts = endsChoice w.current := by
  unfold nextEndsChoice
  rw [head?_of_shows hne h]
  rfl

theorem spelled_entries (hn : nested.Reads n) : ∀ k w es v, w.Ends → w.size ≤ n + 1 → w.size ≤ k →
    (atMostWhile (fun t => !endsChoice t) (listedEntry nested) k).Gives w es v → Spelled (.entries es) w v := by
  intro k
  induction k with
  | zero =>
    intro w es v _ _ hk h
    unfold atMostWhile at h
    obtain ⟨rfl, rfl⟩ := gives_pure.1 h
    refine ⟨[], .nil, fun after hne hshows => .noEntries ?_⟩
    rw [nextEndsChoice_of_shows hne hshows]
    unfold endsChoice
    rw [Window.current_of_size (by omega), Bool.or_true]
  | succ k ih =>
    intro w es v hw hsize hk h
    unfold atMostWhile at h
    obtain ⟨_, _, hcur, h⟩ := gives_bind.1 h
    obtain ⟨rfl, rfl⟩ := gives_current.1 hcur
    rcases gives_ite.1 h with ⟨_, h⟩ | ⟨ends, h⟩
    · simp only [listedEntry, gives_bind, gives_at?, gives_ite, gives_advance, gives_pure, and_assoc, exists_and_left,
        exists_eq_left'] at h
      obtain ⟨_, x, ⟨e, u, he, hcomma⟩, es, v, hes, rfl, rfl⟩ := h
      have entry := reads_entry hn w e u hw hsize he
      have small := entry.size_lt hw rfl
      have hu := entry.ends hw
      obtain ⟨ts, hts, entry⟩ := entry
      rcases hcomma with ⟨mark, _, y, move, rfl, rfl⟩ | ⟨free, rfl, rfl⟩
      · obtain rfl := Window.eq_current_of_advance move
        have smaller := Window.size_of_advance hu move (not_end_of_is mark (by decide))
        obtain ⟨us, hus, more⟩ := ih y es v (hu.advance move) (by omega) (by omega) hes
        refine ⟨_, hts.trans (.cons move hus), fun after hne hshows => ?_⟩
        have more := more after hne hshows
        rw [Window.lastStop_of_advance move] at more
        exact .commaEntry (entry _ (by simp) ((Window.Steps.cons move hus).shows hshows)) mark more
      · obtain ⟨us, hus, more⟩ := ih u es v hu (by omega) (by omega) hes
        refine ⟨_, hts.trans hus, fun after hne hshows => ?_⟩
        have hne' : us ++ after ≠ [] := List.append_ne_nil_of_right_ne_nil _ hne
        have more := more after hne hshows
        rw [hts.lastStop] at more
        refine .plainEntry (entry _ hne' (hus.shows hshows)) ?_ more
        rw [nextIs_of_shows hne' (hus.shows hshows)]
        simpa using free
    · obtain ⟨rfl, rfl⟩ := gives_pure.1 h
      refine ⟨[], .nil, fun after hne hshows => .noEntries ?_⟩
      rw [nextEndsChoice_of_shows hne hshows]
      simpa using ends

theorem reads_groupChoice (hn : nested.Reads n) : ReadsUpTo (n + 1) (groupChoice nested) .groupChoice := by
  intro w c v hw hsize h
  simp only [groupChoice, manyWhile, gives_bind, gives_current, gives_get, gives_spanFrom, gives_pure, and_assoc,
    exists_and_left, exists_eq_left'] at h
  obtain ⟨es, v, hes, rfl, rfl⟩ := h
  obtain ⟨ts, hts, entries⟩ := spelled_entries hn _ w es v hw hsize (Nat.le_refl _) hes
  refine ⟨ts, hts, fun after hne hshows => ?_⟩
  rw [← Span.over_of_steps hts hne hshows]
  exact .groupChoice (entries after hne hshows)

theorem reads_group (hn : nested.Reads n) : ReadsUpTo (n + 1) (group nested) .group := by
  intro w g v hw hsize h
  simp only [group, manyWhile, gives_bind, gives_current, gives_get, gives_spanFrom, gives_pure, and_assoc,
    exists_and_left, exists_eq_left'] at h
  obtain ⟨c, u, hc, cs, v, hcs, rfl, rfl⟩ := h
  have first := reads_groupChoice hn w c u hw hsize hc
  have small := first.size_le hw
  obtain ⟨ts, hts, first⟩ := first
  have more : Spelled (.groupChoices cs) u v :=
    spelled_atMostWhile (f := id) (q := .groupChoice) (n := n + 1) (by decide) (fun _ _ => .noGroupChoices)
      (fun _ _ _ _ _ _ _ => .moreGroupChoices)
      (fun w b v hw hsize h => ⟨b, rfl, reads_groupChoice hn w b v hw hsize h⟩) _ u cs v (hts.ends hw) (by omega)
      (Nat.le_refl _) hcs
  obtain ⟨us, hus, more⟩ := more
  refine ⟨ts ++ us, hts.trans hus, fun after hne hshows => ?_⟩
  have more := more after hne hshows
  rw [hts.lastStop] at more
  rw [← Span.over_of_steps (hts.trans hus) hne hshows]
  exact .group (first _ (List.append_ne_nil_of_right_ne_nil _ hne) (hus.shows hshows)) more

/-! ## The knot -/

/-- Where no token is left, a group is one choice without entries. -/
theorem reads_emptyGroup : ReadsUpTo 0 emptyGroup .group := by
  intro w g v _ hsize h
  simp only [emptyGroup, gives_bind, gives_current, gives_spanFrom, gives_pure, and_assoc, exists_and_left,
    exists_eq_left'] at h
  obtain ⟨rfl, rfl⟩ := h
  have ends : w.current.is .endOfInput = true := Window.current_of_size (by omega)
  refine ⟨[], .nil, fun after hne hshows => ?_⟩
  rw [← Span.over_of_steps .nil hne hshows]
  have free : nextEndsChoice after = true := by
    rw [nextEndsChoice_of_shows hne hshows]
    unfold endsChoice
    rw [ends, Bool.or_true]
  have sole : nextIs .groupChoice after = false := by
    rw [nextIs_of_shows hne hshows]
    exact Token.not_is ends (by decide)
  exact (.group (.groupChoice (.noEntries free)) (.noGroupChoices sole) : Spells _ _ ([] ++ []) after)

/-- **As many levels of nesting as there are tokens read every phrase.** -/
theorem reads_nested : ∀ n, (Production.nested n).Reads n
  | 0 => ⟨fun _ _ _ _ _ h => absurd h not_gives_fail, reads_emptyGroup⟩
  | n + 1 => ⟨reads_type1 (reads_nested n), reads_group (reads_nested n)⟩

end Production
end Cddl
