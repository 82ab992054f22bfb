import Cddl.Proofs.Phrase.Complete.Group
/-!
# What spells a document is read as one

Rules that some tokens spell are read one after the other, up to the end of input (`parseFeed_of_spells`).
-/
namespace Cddl

namespace Production

open Reader

variable {n k : Nat} {w u v : Window} {ts after : List Token}

theorem gives_moreParams {ps : List GenericParam} (h : SpellsMoreParams ps ts after) : ∀ k w, w.Ends → w.size ≤ k →
    after ≠ [] → w.Steps ts v → v.Shows after →
      (atMostWhile (·.is .comma) (do let _ ← advance; genericParam) k).Gives w ps v := by
  induction h with
  | nil free =>
    intro k w _ _ hne hs hv
    cases hs
    exact gives_atMostWhile_nil ((nextIs_of_shows hne hv).symm.trans free) k
  | cons mark name _ ih =>
    intro k w hw hk hne hs hv
    cases hs with
    | cons move rest =>
      cases rest with
      | cons second rest =>
        have small := Window.size_of_advance hw move (not_end_of_is mark (by decide))
        have smaller := Window.size_of_advance (hw.advance move) second (not_end_of_is name (by decide))
        obtain ⟨k, rfl⟩ : ∃ l, k = l + 1 := ⟨k - 1, by omega⟩
        refine gives_atMostWhile_cons mark ?_ (ih k _ ((hw.advance move).advance second) (by omega) hne rest hv)
        simp only [gives_bind, gives_advance]
        exact ⟨_, _, move, gives_genericParam.2 ⟨name, second, rfl⟩⟩

theorem gives_params {params : Option GenericParams} (h : SpellsParams params ts after) (hw : w.Ends) (hne : after ≠ [])
    (hs : w.Steps ts v) (hv : v.Shows after) : (ifAngle genericParams).Gives w params v := by
  cases h with
  | none free =>
    cases hs
    simp only [ifAngle, gives_bind, gives_at?, and_assoc, exists_and_left, exists_eq_left',
      (nextIs_of_shows hne hv).symm.trans free, Bool.false_eq_true, if_false, gives_pure, and_self]
  | some opening name more closing =>
    rename_i o t c ps ts
    have around : w.Steps (o :: ((t :: ts) ++ [c])) v := hs
    obtain ⟨rfl, u, x, move, _, walk, rfl, last⟩ := steps_enclosed around
    cases walk with
    | cons second walk =>
      have hps := gives_moreParams more _ _ ((hw.advance move).advance second) (Nat.le_refl _)
        (List.cons_ne_nil _ _) walk ((Window.shows_cons_iff last).2 hv)
      simp only [ifAngle, genericParams, inAngles, gives_bind, gives_at?, gives_ite, gives_expect, gives_manyWhile,
        gives_spanFrom, gives_pure]
      exact ⟨_, _, ⟨rfl, rfl⟩,
        .inl ⟨opening, _, v, ⟨_, v, ⟨_, u, ⟨opening, move⟩,
          _, _, gives_genericParam.2 ⟨name, second, rfl⟩, _, x, hps, _, v, ⟨closing, last⟩, rfl, rfl⟩,
          _, _, ⟨rfl, rfl⟩, by rw [Window.lastStop_of_advance last], rfl⟩, rfl, rfl⟩⟩

/-- What stands before the body of a rule is read, up to the body. -/
theorem given_head {name eq : Token} {gp : Option GenericParams} {a : Assignment} {ps us : List Token}
    (isName : name.is .name = true) (params : SpellsParams gp ps (eq :: (us ++ after)))
    (assigned : assignment? eq = some a) (hw : w.Ends) (hs : w.Steps (name :: (ps ++ eq :: us)) v)
    (hv : v.Shows after) : ∃ x y z, w.current = name ∧ w.advance = (.ok name, x) ∧
      (ifAngle genericParams).Gives x gp y ∧ assignment.Gives y a z ∧
      z.Steps us v ∧ z.lastStop = eq.stop ∧ z.Ends ∧ z.size ≤ w.size := by
  obtain rfl := hs.head
  obtain ⟨x, move, _, rest⟩ := hs.tail
  obtain ⟨y, first, second⟩ := rest.split
  obtain rfl := second.head
  obtain ⟨z, move', stop, walk⟩ := second.tail
  have hx := hw.advance move
  have hy := first.ends hx
  have small := Window.size_of_advance hw move (not_end_of_is isName (by decide))
  have smaller := first.size hx params.unended
  have smallest := Window.size_of_advance hy move' (not_end_of_assignment? assigned)
  exact ⟨x, y, z, rfl, move, gives_params params hx (List.cons_ne_nil _ _) first (second.shows hv),
    gives_assignment.2 ⟨assigned, move'⟩, walk, stop, hy.advance move', by omega⟩

/-- **A rule is read from the tokens that spell it.** -/
theorem gives_rule {r : Rule} (h : SpellsRule r ts after) (hw : w.Ends) (hsize : w.size ≤ n) (hlen : 2 ≤ after.length)
    (hs : w.Steps ts v) (hv : v.Shows after) : (rule (nested n)).Gives w r v := by
  cases h with
  | type isName params assigned start kind type =>
    obtain ⟨x, y, z, rfl, move, hgp, ha, walk, stop, hz, small⟩ := given_head isName params assigned hw hs hv
    have hty := given_of_spells type n z v stop hz (by omega) hlen walk hv
    have paren := not_leftParen walk (type.ne_nil rfl) start
    rw [readsEntry_of_shows (walk.shows hv) (two_le_append hlen)] at kind
    simp only [rule, ruleBody, gives_bind, gives_current, gives_expect, gives_at?, gives_ite, gives_groupBody,
      gives_spanFrom, gives_pure, and_assoc, exists_and_left, exists_eq_left']
    exact ⟨isName, _, x, move, _, y, hgp, _, z, ha, .inr ⟨paren, .inr ⟨by rw [kind]; exact Bool.false_ne_true,
      _, v, hty, by rw [walk.lastStop, stop], rfl⟩⟩⟩
  | group isName params assigned start kind entry =>
    obtain ⟨x, y, z, rfl, move, hgp, ha, walk, stop, hz, small⟩ := given_head isName params assigned hw hs hv
    have he := given_of_spells entry n z v stop hz (by omega) hlen walk hv
    have paren := not_leftParen walk (entry.ne_nil rfl) start
    rw [readsEntry_of_shows (walk.shows hv) (two_le_append hlen)] at kind
    simp only [rule, ruleBody, gives_bind, gives_current, gives_expect, gives_at?, gives_ite, gives_groupBody,
      gives_spanFrom, gives_pure, and_assoc, exists_and_left, exists_eq_left']
    exact ⟨isName, _, x, move, _, y, hgp, _, z, ha, .inr ⟨paren, .inl ⟨kind, _, v, he,
      by rw [walk.lastStop, stop], rfl⟩⟩⟩

end Production

/-! ## Documents -/

variable {w v : Window} {ts after : List Token} {rs : List Rule}

/-- **Rules are read from the tokens that spell them, up to the end of input.** -/
theorem Session.rules_of_spells (h : SpellsRules rs ts after) : ∀ (n : Nat) (w : Window), w.Ends → w.size ≤ n →
    2 ≤ after.length → w.Steps ts v → v.Shows after → v.current.is .endOfInput = true →
      rules n ⟨w, []⟩ = (.ok rs, ⟨v, []⟩) := by
  induction h with
  | nil =>
    intro n w _ _ _ hs _ ends
    cases hs
    cases n with
    | zero => rfl
    | succ n =>
      unfold rules
      rw [if_pos ends]
  | @cons r rs ts us after first more ih =>
    intro n w hw hsize hlen hs hv ends
    obtain ⟨u, walk, rest⟩ := hs.split
    have small := walk.size hw first.unended
    have begins : ¬ w.current.is .endOfInput = true := by
      cases first <;> rename_i isName _ _ _ _ _ <;> rw [walk.head, not_end_of_is isName (by decide)] <;>
        exact Bool.false_ne_true
    have pos : 1 ≤ ts.length := by cases first <;> exact Nat.le_add_left 1 _
    obtain ⟨n, rfl⟩ : ∃ m, n = m + 1 := ⟨n - 1, by omega⟩
    have given : (Production.closed Production.rule).Gives w r u :=
      Reader.gives_bind.2 ⟨w, w, Reader.gives_get.2 ⟨rfl, rfl⟩,
        Production.gives_rule first hw (Nat.le_refl _) (Production.two_le_append hlen) walk (rest.shows hv)⟩
    have read : (⟨w, []⟩ : Session).read (Production.closed Production.rule) = (.ok r, ⟨u, []⟩) := by
      rw [read_eq, show _ = _ from given]
    unfold rules
    rw [if_neg begins, read]
    simp only [ih n u (walk.ends hw) (by omega) hlen rest hv ends]
    rfl

/-- **A document is read from the tokens that spell its rules, up to the end of input.** -/
theorem parseFeed_of_spells {feed : Feed} (hf : feed.Ends) (hw : Window.ofFeed feed = .ok w)
    (h : SpellsRules rs ts after)
    (hlen : 2 ≤ after.length) (hs : w.Steps ts v) (hv : v.Shows after) (ends : v.current.is .endOfInput = true) :
    parseFeed feed = .ok ⟨rs, some ⟨w.current.location, v.lastStop⟩⟩ := by
  unfold parseFeed Session.ofFeed
  rw [hw]
  simp only [Except.map, Session.document,
    Session.rules_of_spells h w.size w (Window.ends_ofFeed hf hw) (Nat.le_refl _) hlen hs hv ends, if_true]

end Cddl
