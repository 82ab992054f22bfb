import Cddl.Proofs.Except
import Cddl.Proofs.Phrase.Read
/-!
# What the tokens of a document spell

Rules are spelled one after the other.  A document that is read without a fault is spelled by all the tokens before the
end of input (`parseFeed_ok`).
-/
namespace Cddl

open Production Reader

/-- The parameters after a first one. -/
inductive SpellsMoreParams : List GenericParam → List Token → List Token → Prop
  | nil {after : List Token} (free : nextIs .comma after = false) : SpellsMoreParams [] [] after
  | cons {s t : Token} {ps : List GenericParam} {ts after : List Token} (mark : s.is .comma = true)
      (name : t.is .name = true) (more : SpellsMoreParams ps ts after) :
      SpellsMoreParams (⟨identifier t, some t.span⟩ :: ps) (s :: t :: ts) after

inductive SpellsParams : Option GenericParams → List Token → List Token → Prop
  | none {after : List Token} (free : nextIs .leftAngle after = false) : SpellsParams none [] after
  | some {o t c : Token} {ps : List GenericParam} {ts after : List Token} (opening : o.is .leftAngle = true)
      (name : t.is .name = true) (more : SpellsMoreParams ps ts (c :: after)) (closing : c.is .rightAngle = true) :
      SpellsParams (some ⟨⟨identifier t, some t.span⟩ :: ps, some ⟨o.location, c.stop⟩⟩) (o :: t :: (ts ++ [c])) after

/-- Whether what some tokens begin with can only be an entry of a group. -/
def beginsGroupEntry : List Token → Bool
  | t :: u :: _ => startsGroupEntry t u
  | _ => false

/-- Whether the body of a rule with the given assignment is read as a group entry. -/
def readsEntry (a : Assignment) (ts : List Token) : Bool := a = .extendGroup || (a = .define && beginsGroupEntry ts)

inductive SpellsRule : Rule → List Token → List Token → Prop
  | type {name eq : Token} {gp : Option GenericParams} {a : Assignment} {ty : TypeExpr} {ps us after : List Token}
      (isName : name.is .name = true) (params : SpellsParams gp ps (eq :: (us ++ after)))
      (assigned : assignment? eq = some a) (start : nextIs .leftParen us = false)
      (kind : readsEntry a (us ++ after) = false) (type : Spells (.type ty) eq.stop us after) :
      SpellsRule
        ⟨.type ⟨identifier name, gp, a = .extendType, ty, some ⟨name.location, stopAfter eq.stop us⟩⟩,
          some ⟨name.location, stopAfter eq.stop us⟩⟩
        (name :: (ps ++ eq :: us)) after
  | group {name eq : Token} {gp : Option GenericParams} {a : Assignment} {e : GroupEntry} {ps us after : List Token}
      (isName : name.is .name = true) (params : SpellsParams gp ps (eq :: (us ++ after)))
      (assigned : assignment? eq = some a) (start : nextIs .leftParen us = false)
      (kind : readsEntry a (us ++ after) = true) (entry : Spells (.entry e) eq.stop us after) :
      SpellsRule
        ⟨.group ⟨identifier name, gp, a = .extendGroup, e, some ⟨name.location, stopAfter eq.stop us⟩⟩,
          some ⟨name.location, stopAfter eq.stop us⟩⟩
        (name :: (ps ++ eq :: us)) after

inductive SpellsRules : List Rule → List Token → List Token → Prop
  | nil {after : List Token} : SpellsRules [] [] after
  | cons {r : Rule} {rs : List Rule} {ts us after : List Token} (first : SpellsRule r ts (us ++ after))
      (more : SpellsRules rs us after) : SpellsRules (r :: rs) (ts ++ us) after

/-- The mark that an assignment is written as. -/
def Production.Assignment.mark : Assignment → Mark
  | .define => .assign
  | .extendType => .extendType
  | .extendGroup => .extendGroup

theorem is_mark_of_assignment? {t : Token} {a : Assignment} (h : assignment? t = some a) : t.is a.mark = true := by
  unfold assignment? at h
  split at h <;> cases h <;> exact Token.is_iff.2 ‹_›

theorem not_end_of_assignment? {t : Token} {a : Assignment} (h : assignment? t = some a) :
    t.is .endOfInput = false := by
  refine not_end_of_is (is_mark_of_assignment? h) ?_
  cases a <;> decide

theorem SpellsMoreParams.unended {ps : List GenericParam} {ts after : List Token} (h : SpellsMoreParams ps ts after) :
    Unended ts := by
  induction h with
  | nil => exact unended_nil
  | cons mark name _ ih => simp [not_end_of_is mark, not_end_of_is name, ih]

theorem SpellsParams.unended {params : Option GenericParams} {ts after : List Token}
    (h : SpellsParams params ts after) : Unended ts := by
  cases h with
  | none => exact unended_nil
  | some opening name more closing =>
    simp [not_end_of_is opening, not_end_of_is name, not_end_of_is closing, more.unended]

theorem SpellsRule.unended {r : Rule} {ts after : List Token} (h : SpellsRule r ts after) : Unended ts := by
  cases h with
  | type isName params assigned _ _ type =>
    simp [not_end_of_is isName, params.unended, not_end_of_assignment? assigned, type.unended]
  | group isName params assigned _ _ entry =>
    simp [not_end_of_is isName, params.unended, not_end_of_assignment? assigned, entry.unended]

theorem SpellsRules.unended {rs : List Rule} {ts after : List Token} (h : SpellsRules rs ts after) : Unended ts := by
  induction h with
  | nil => exact unended_nil
  | cons first _ ih => simp [first.unended, ih]

/-! ## Reading rules -/

namespace Production

variable {n : Nat} {w v : Window}

theorem identifier_span (t : Token) : (identifier t).span = some t.span := by
  unfold identifier
  split
  · rfl
  · split <;> rfl

theorem gives_genericParam {p : GenericParam} : genericParam.Gives w p v ↔
    w.current.is .name = true ∧ w.advance = (.ok w.current, v) ∧ p = ⟨identifier w.current, some w.current.span⟩ := by
  simp only [genericParam, gives_bind, gives_expect, gives_pure, and_assoc, exists_and_left]
  constructor
  · rintro ⟨name, t, u, move, rfl, rfl⟩
    obtain rfl := Window.eq_current_of_advance move
    exact ⟨name, move, by rw [identifier_span]⟩
  · rintro ⟨name, move, rfl⟩
    exact ⟨name, w.current, v, move, by rw [identifier_span], rfl⟩

theorem spelled_moreParams : ∀ k w ps v, w.Ends → w.size ≤ k →
    (atMostWhile (·.is .comma) (do let _ ← advance; genericParam) k).Gives w ps v →
      ∃ ts, w.Steps ts v ∧ ∀ after, after ≠ [] → v.Shows after → SpellsMoreParams ps ts after := by
  intro k
  induction k with
  | zero =>
    intro w ps v _ hk h
    unfold atMostWhile at h
    obtain ⟨rfl, rfl⟩ := gives_pure.1 h
    refine ⟨[], .nil, fun after hne hshows => .nil ?_⟩
    rw [nextIs_of_shows hne hshows]
    exact Token.not_is (Window.current_of_size (by omega)) (by decide)
  | succ k ih =>
    intro w ps v hw hk h
    unfold atMostWhile at h
    simp only [gives_bind, gives_current, gives_ite, gives_advance, gives_genericParam, gives_pure, and_assoc,
      exists_and_left, exists_eq_left'] at h
    rcases h with ⟨mark, p, x, ⟨_, y, move, name, second, rfl⟩, ps, v, hps, rfl, rfl⟩ | ⟨free, rfl, rfl⟩
    · obtain rfl := Window.eq_current_of_advance move
      have small := Window.size_of_advance hw move (not_end_of_is mark (by decide))
      have hy := hw.advance move
      have smaller := Window.size_of_advance hy second (not_end_of_is name (by decide))
      obtain ⟨ts, hts, more⟩ := ih x ps v (hy.advance second) (by omega) hps
      exact ⟨_, .cons move (.cons second hts), fun after hne hshows => .cons mark name (more after hne hshows)⟩
    · refine ⟨[], .nil, fun after hne hshows => .nil ?_⟩
      rw [nextIs_of_shows hne hshows]
      simpa using free

theorem spelled_params {params : Option GenericParams} (hw : w.Ends) (h : (ifAngle genericParams).Gives w params v) :
    ∃ ts, w.Steps ts v ∧ ∀ after, after ≠ [] → v.Shows after → SpellsParams params ts after := by
  simp only [ifAngle, genericParams, inAngles, manyWhile, gives_bind, gives_at?, gives_get, gives_ite, gives_expect,
    gives_genericParam, gives_spanFrom, gives_pure, and_assoc, exists_and_left, exists_eq_left'] at h
  rcases h with ⟨opening, _, _, _, ⟨_, _, ⟨o, w₁, move, name, p, w₂, second, rfl, ps, w₃, hps, closing, c, v, last, rfl,
    rfl⟩, rfl, rfl⟩, rfl, rfl⟩ | ⟨free, rfl, rfl⟩
  · obtain rfl := Window.eq_current_of_advance move
    obtain rfl := Window.eq_current_of_advance last
    obtain ⟨ts, hts, more⟩ := spelled_moreParams _ w₂ ps w₃ ((hw.advance move).advance second) (Nat.le_refl _) hps
    refine ⟨_, .cons move (.cons second (hts.trans (.one last))), fun after hne hshows => ?_⟩
    rw [Window.lastStop_of_advance last]
    exact .some opening name (more _ (by simp) ((Window.shows_cons_iff last).2 hshows)) closing
  · refine ⟨[], .nil, fun after hne hshows => .none ?_⟩
    rw [nextIs_of_shows hne hshows]
    simpa using free

theorem gives_assignment {a : Assignment} :
    assignment.Gives w a v ↔ assignment? w.current = some a ∧ w.advance = (.ok w.current, v) := by
  unfold assignment
  simp only [gives_bind, gives_current, and_assoc, exists_and_left, exists_eq_left']
  cases h : assignment? w.current with
  | none => simp [not_gives_fail]
  | some b =>
    simp only [gives_bind, gives_advance, gives_pure, Option.some.injEq]
    constructor
    · rintro ⟨t, u, move, rfl, rfl⟩
      obtain rfl := Window.eq_current_of_advance move
      exact ⟨rfl, move⟩
    · rintro ⟨rfl, move⟩
      exact ⟨w.current, v, move, rfl, rfl⟩

theorem readsEntry_of_shows {a : Assignment} {ts : List Token} (h : w.Shows ts) (hts : 2 ≤ ts.length) :
    readsEntry a ts =
      (decide (a = .extendGroup) || (decide (a = .define) && startsGroupEntry w.current w.upcoming)) := by
  match ts, hts, h with
  | t :: u :: ts, _, h =>
    rw [h.current, h.upcoming]
    rfl

theorem gives_groupBody {a : Assignment} {b : Bool} : (groupBody a).Gives w b v ↔
    (decide (a = .extendGroup) || (decide (a = .define) && startsGroupEntry w.current w.upcoming)) = b ∧ w = v := by
  simp only [groupBody, gives_bind, gives_current, gives_upcoming, gives_pure, and_assoc, exists_and_left,
    exists_eq_left']

/-- A rule that is read has met its tokens. -/
theorem reads_rule {nested : Nested} {r : Rule} (hn : nested.Reads n) (hw : w.Ends) (hsize : w.size ≤ n + 1)
    (h : (rule nested).Gives w r v) :
    ∃ ts, w.Steps ts v ∧ ts ≠ [] ∧ ∀ after, after ≠ [] → v.Shows after → SpellsRule r ts after := by
  simp only [rule, ruleBody, gives_bind, gives_current, gives_expect, gives_assignment, gives_at?, gives_ite,
    gives_groupBody, gives_spanFrom, gives_pure, not_gives_throw, and_false, exists_false, false_or, and_assoc,
    exists_and_left, exists_eq_left', Bool.not_eq_true] at h
  obtain ⟨isName, name, w₁, move, params, w₂, hparams, a, assigned, w₃, second, start, h⟩ := h
  obtain rfl := Window.eq_current_of_advance move
  have small := Window.size_of_advance hw move (not_end_of_is isName (by decide))
  have hw₁ := hw.advance move
  obtain ⟨ps, hps, params'⟩ := spelled_params hw₁ hparams
  have hw₂ := hps.ends hw₁
  have le := hps.size hw₁ (params' _ (List.cons_ne_nil _ _) w₂.shows_pair).unended
  have less := Window.size_of_advance hw₂ second (not_end_of_assignment? assigned)
  have hw₃ := hw₂.advance second
  have front : w.Steps (w.current :: (ps ++ [w₂.current])) w₃ := .cons move (hps.trans (.one second))
  have two {us after : List Token} (hus : us ≠ []) (hne : after ≠ []) : 2 ≤ (us ++ after).length := by
    have := List.length_pos_iff.2 hus
    have := List.length_pos_iff.2 hne
    rw [List.length_append]
    omega
  rcases h with ⟨kind, e, v, he, rfl, rfl⟩ | ⟨kind, ty, v, hty, rfl, rfl⟩
  · obtain ⟨us, hus, entry⟩ := reads_entry hn w₃ e v hw₃ (by omega) he
    refine ⟨_, .cons move (hps.trans (.cons second hus)), List.cons_ne_nil _ _, fun after hne hshows => ?_⟩
    have shows₃ := hus.shows hshows
    have params := params' _ (by simp) ((Window.Steps.cons second hus).shows hshows)
    have entry := entry after hne hshows
    have hne' := entry.ne_nil rfl
    rw [hus.lastStop, Window.lastStop_of_advance second]
    rw [Window.lastStop_of_advance second] at entry
    refine .group isName params assigned ((nextIs_of_steps hus hne').trans start) ?_ entry
    rw [readsEntry_of_shows shows₃ (two hne' hne), kind]
  · obtain ⟨us, hus, type⟩ := reads_typeExpr (reads_type1 hn) w₃ ty v hw₃ (by omega) hty
    refine ⟨_, .cons move (hps.trans (.cons second hus)), List.cons_ne_nil _ _, fun after hne hshows => ?_⟩
    have shows₃ := hus.shows hshows
    have params := params' _ (by simp) ((Window.Steps.cons second hus).shows hshows)
    have type := type after hne hshows
    have hne' := type.ne_nil rfl
    rw [hus.lastStop, Window.lastStop_of_advance second]
    rw [Window.lastStop_of_advance second] at type
    refine .type isName params assigned ((nextIs_of_steps hus hne').trans start) ?_ type
    rw [readsEntry_of_shows shows₃ (two hne' hne), kind]

theorem reads_closed_rule {r : Rule} (hw : w.Ends) (h : (closed rule).run.run w = (.ok r, v)) :
    ∃ ts, w.Steps ts v ∧ ts ≠ [] ∧ ∀ after, after ≠ [] → v.Shows after → SpellsRule r ts after := by
  have given : (closed rule).Gives w r v := h
  unfold closed at given
  obtain ⟨_, _, hget, given⟩ := gives_bind.1 given
  obtain ⟨rfl, rfl⟩ := gives_get.1 hget
  exact reads_rule (reads_nested _) hw (Nat.le_succ _) given

end Production

/-! ## Reading documents -/

namespace Session

theorem read_eq {α : Type} (r : Reader α) (s : Session) :
    s.read r = ((r.run.run s.window).1, { s with window := (r.run.run s.window).2 }) := rfl

/-- No fault that has been collected is ever dropped. -/
theorem collected_rules : ∀ (n : Nat) (s : Session), s.collected <+: (rules n s).2.collected
  | 0, s => List.prefix_refl _
  | n + 1, s => by
    unfold rules
    split
    · exact List.prefix_refl _
    · simp only [read_eq]
      generalize hr : (closed rule).run.run s.window = result
      obtain ⟨fault | r, w⟩ := result
      · simp only []
        split
        · exact List.prefix_refl _
        · simp only [recover, read_eq]
          generalize hs : (resynchronize s.window.current.location.offset _).run.run w = moved
          obtain ⟨fault' | _, v⟩ := moved
          · exact List.prefix_append _ _
          · exact (List.prefix_append _ _).trans (collected_rules n ⟨v, s.collected ++ [fault]⟩)
      · exact collected_rules n { s with window := w }

/-- **Rules that are read without a fault are spelled by the tokens up to the end of input.** -/
theorem rules_ok : ∀ (n : Nat) (s t : Session) (rs : List Rule), s.window.Ends → s.window.size ≤ n →
    rules n s = (.ok rs, t) → t.collected = [] → ∃ ts, s.window.Steps ts t.window ∧
      t.window.current.is .endOfInput = true ∧
        ∀ after, after ≠ [] → t.window.Shows after → SpellsRules rs ts after
  | 0, s, t, rs, _, hsize, h, _ => by
    cases h
    exact ⟨[], .nil, Window.current_of_size (by omega), fun _ _ _ => .nil⟩
  | n + 1, s, t, rs, hw, hsize, h, hnone => by
    unfold rules at h
    split at h
    case isTrue ends =>
      cases h
      exact ⟨[], .nil, ends, fun _ _ _ => .nil⟩
    case isFalse =>
      simp only [read_eq] at h
      generalize hr : (closed rule).run.run s.window = result at h
      obtain ⟨fault | r, w⟩ := result
      · -- the fault would still be there at the end
        simp only [] at h
        split at h
        · cases h
        · simp only [recover, read_eq] at h
          generalize hs : (resynchronize s.window.current.location.offset _).run.run w = moved at h
          obtain ⟨fault' | _, v⟩ := moved
          · cases h
          · have kept := collected_rules n { window := v, collected := s.collected ++ [fault] }
            simp only [] at h
            rw [h, hnone] at kept
            simp at kept
      · simp only [] at h
        obtain ⟨ts, hts, hne, first⟩ := reads_closed_rule hw hr
        generalize hrest : rules n { s with window := w } = rest at h
        obtain ⟨fault | rs', t'⟩ := rest
        · cases h
        · simp only [Except.map, Prod.mk.injEq, Except.ok.injEq] at h
          obtain ⟨rfl, rfl⟩ := h
          have less := hts.size hw (first _ (List.cons_ne_nil _ _) w.shows_pair).unended
          have := List.length_pos_iff.2 hne
          obtain ⟨us, hus, ends, more⟩ := rules_ok n { s with window := w } t' rs' (hts.ends hw)
            (show w.size ≤ n by omega) hrest hnone
          exact ⟨ts ++ us, hts.trans hus, ends, fun after hne hshows =>
            .cons (first _ (List.append_ne_nil_of_right_ne_nil _ hne) (hus.shows hshows)) (more after hne hshows)⟩

end Session

theorem Window.ofFeed_ok {feed : Feed} {w : Window} (h : Window.ofFeed feed = .ok w) :
    feed.item 0 = .ok w.current ∧ feed.item 1 = .ok w.upcoming ∧ w.feed = feed.pull.2.pull.2 ∧
      w.lastStop = w.current.location := by
  obtain ⟨current, (first : feed.pull.1 = .ok current), h⟩ := bind_eq_ok_iff.1 h
  obtain ⟨upcoming, (second : feed.pull.2.pull.1 = .ok upcoming), h⟩ := bind_eq_ok_iff.1 h
  cases h
  rw [Feed.pull_fst] at first second
  rw [Feed.pull_item] at second
  exact ⟨first, second, rfl, rfl⟩

theorem Window.item_ofFeed {feed : Feed} {w : Window} (h : Window.ofFeed feed = .ok w) : ∀ n, w.item n = feed.item n
  | 0 => (Window.ofFeed_ok h).1.symm
  | 1 => (Window.ofFeed_ok h).2.1.symm
  | n + 2 => by simp only [Window.item, (Window.ofFeed_ok h).2.2.1, Feed.pull_item]

theorem Window.ends_ofFeed {feed : Feed} {w : Window} (hf : feed.Ends) (h : Window.ofFeed feed = .ok w) : w.Ends := by
  intro t ht
  rw [(Window.ofFeed_ok h).2.2.1, Feed.pull_last, Feed.pull_last] at ht
  exact hf t ht

/-- **A document that is read is spelled by the tokens up to the end of input, and its span is theirs.** -/
theorem parseFeed_ok {feed : Feed} {d : Document} (hf : feed.Ends) (h : parseFeed feed = .ok d) :
    ∃ w v ts, Window.ofFeed feed = .ok w ∧ w.Steps ts v ∧ v.current.is .endOfInput = true ∧
      d.span = some ⟨w.current.location, v.lastStop⟩ ∧
        ∀ after, after ≠ [] → v.Shows after → SpellsRules d.rules ts after := by
  unfold parseFeed Session.ofFeed at h
  cases hw : Window.ofFeed feed with
  | error fault => rw [hw] at h; cases h
  | ok w =>
    rw [hw] at h
    simp only [Except.map, Session.document] at h
    generalize hrules : Session.rules w.size ⟨w, []⟩ = result at h
    obtain ⟨fault | rs, t⟩ := result
    · cases h
    · simp only [] at h
      split at h
      case isFalse => cases h
      case isTrue hnone =>
        cases h
        obtain ⟨ts, hts, ends, rules⟩ := Session.rules_ok _ ⟨w, []⟩ t rs (Window.ends_ofFeed hf hw) (Nat.le_refl _)
          hrules hnone
        exact ⟨w, t.window, ts, rfl, hts, ends, rfl, rules⟩

theorem parse_eq_ok_iff {source : Text} {d : Document} : parse source = .ok d ↔ parseFeed (.ofText source) = .ok d :=
  mapError_eq_ok_iff

theorem parseTokens_eq_ok_iff {tokens : List Token} {shown : Text} {d : Document} :
    parseTokens tokens shown = .ok d ↔ parseFeed (.ofTokens tokens) = .ok d :=
  mapError_eq_ok_iff

end Cddl
