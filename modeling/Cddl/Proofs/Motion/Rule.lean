import Cddl.Proofs.Motion.Phrase
/-!
# Rules that are moved

Rules are moved with their tokens, and rules that end with the input may be followed by rules that are moved
(`SpellsRules.join`).
-/
namespace Cddl

open Production

variable {m : Motion} {ts us after after' rest : List Token} {rs rs' : List Rule} {e e' l : Token}

theorem SpellsMoreParams.moved {ps : List GenericParam} (h : SpellsMoreParams ps ts after) :
    Beyond m after after' → SpellsMoreParams (ps.map (·.respan m.spans)) (ts.map m.token) after' := by
  intro beyond
  induction h with
  | nil free => exact .nil ((beyond.nextIs (by decide)).trans free)
  | cons mark name _ ih =>
    rw [List.map_cons, GenericParam.respan, m.identifier_token, m.spans_token]
    exact .cons mark name (ih beyond)

theorem SpellsParams.moved {params : Option GenericParams} (h : SpellsParams params ts after)
    (beyond : Beyond m after after') :
    SpellsParams (params.map (GenericParams.respan m.spans)) (ts.map m.token) after' := by
  cases h with
  | none free => exact .none ((beyond.nextIs (by decide)).trans free)
  | some opening name more closing =>
    rw [Option.map_some, GenericParams.respan, List.map_cons, GenericParam.respan, m.identifier_token, m.spans_token,
      m.spans_between]
    simp only [List.map_cons, List.map_append]
    exact .some opening name (more.moved beyond.token) closing

/-- What stands behind a rule does not make an entry of a type, or a type of an entry. -/
theorem readsEntry_moved (beyond : Beyond m after after') (a : Assignment) (hts : ts ≠ []) :
    readsEntry a (ts.map m.token ++ after') = readsEntry a (ts ++ after) := by
  obtain ⟨t, ts, rfl⟩ := List.exists_cons_of_ne_nil hts
  unfold readsEntry
  rw [List.map_cons, List.cons_append, (beyond.append ts).beginsGroupEntry]
  rfl

theorem SpellsRule.moved {r : Rule} (h : SpellsRule r ts after) (beyond : Beyond m after after') :
    SpellsRule (r.respan m.spans) (ts.map m.token) after' := by
  have stretch (name eq : Token) (us : List Token) : m.spans (some ⟨name.location, stopAfter eq.stop us⟩) =
      some ⟨(m.token name).location, stopAfter (m.token eq).stop (us.map m.token)⟩ := by
    rw [m.stop_token, m.stopAfter_map]
    rfl
  cases h with
  | @type name eq gp a ty ps us after isName params assigned start kind inner =>
    have type := spells_moved inner beyond (.of_open rfl)
    rw [← m.stop_token] at type
    rw [Rule.respan, RuleBody.respan, TypeRule.respan, stretch, m.identifier_token]
    simp only [List.map_cons, List.map_append]
    exact .type isName (params.moved (beyond.append us).token) assigned ((m.nextIs_map _ _).trans start)
      ((readsEntry_moved beyond a (inner.ne_nil rfl)).trans kind) type
  | @group name eq gp a e ps us after isName params assigned start kind inner =>
    have entry := spells_moved inner beyond (.of_open rfl)
    rw [← m.stop_token] at entry
    rw [Rule.respan, RuleBody.respan, GroupRule.respan, stretch, m.identifier_token]
    simp only [List.map_cons, List.map_append]
    exact .group isName (params.moved (beyond.append us).token) assigned ((m.nextIs_map _ _).trans start)
      ((readsEntry_moved beyond a (inner.ne_nil rfl)).trans kind) entry

theorem SpellsRules.moved (h : SpellsRules rs ts after) : Beyond m after after' →
    SpellsRules (rs.map (·.respan m.spans)) (ts.map m.token) after' := by
  intro beyond
  induction h with
  | nil => exact .nil
  | @cons r rs ts us after first _ ih =>
    rw [List.map_cons, List.map_append]
    exact .cons (first.moved (beyond.append us)) (ih beyond)

/-- Rules stay where they are, and other tokens that no rule goes on with come to stand behind them. -/
theorem SpellsRules.behind (h : SpellsRules rs ts after) (beyond : Beyond ⟨0, 0⟩ after after') :
    SpellsRules rs ts after' := by
  have moved := h.moved beyond
  have rules : rs.map (·.respan (⟨0, 0⟩ : Motion).spans) = rs := by
    simp only [Motion.spans_zero, Rule.respan_id, List.map_id']
  rwa [rules, Motion.map_token_zero] at moved

theorem SpellsParams.behind {params : Option GenericParams} (h : SpellsParams params ts after)
    (beyond : Beyond ⟨0, 0⟩ after after') : SpellsParams params ts after' := by
  have moved := h.moved beyond
  rwa [Motion.spans_zero, map_params_respan_id, Motion.map_token_zero] at moved

/-- Rules begin with a name, or there are none and the end of input comes next. -/
theorem SpellsRules.limits (h : SpellsRules rs ts after) {e : Token} (ends : e.is .endOfInput = true)
    (last : after.head? = some e) : ∃ t, (ts ++ after).head? = some t ∧ t.limits = true := by
  cases h with
  | nil => exact ⟨e, last, Token.limits_of_is ends (by decide)⟩
  | cons first =>
    cases first with
    | type is => exact ⟨_, rfl, Token.limits_of_is is (by decide)⟩
    | group is => exact ⟨_, rfl, Token.limits_of_is is (by decide)⟩

theorem SpellsRules.append (h : SpellsRules rs ts (us ++ after)) (h' : SpellsRules rs' us after) :
    SpellsRules (rs ++ rs') (ts ++ us) after := by
  generalize hall : us ++ after = all at h
  induction h with
  | nil => exact h'
  | @cons r rs ts vs _ first _ ih =>
    subst hall
    rw [List.cons_append, List.append_assoc]
    refine .cons ?_ (ih rfl)
    rwa [List.append_assoc]

/-- **Rules that end with the input may be followed by other rules, moved.** -/
theorem SpellsRules.join (h : SpellsRules rs ts (e :: after)) (ends : e.is .endOfInput = true)
    (h' : SpellsRules rs' us (e' :: after')) (ends' : e'.is .endOfInput = true) (last : l.is .endOfInput = true) :
    SpellsRules (rs ++ rs'.map (·.respan m.spans)) (ts ++ us.map m.token) (l :: rest) := by
  have limit {t : Token} (is : t.is .endOfInput = true) : t.limits = true := Token.limits_of_is is (by decide)
  have second : SpellsRules (rs'.map (·.respan m.spans)) (us.map m.token) (l :: rest) :=
    h'.moved (.limit (limit ends') (limit last))
  obtain ⟨t, next, limits⟩ := second.limits last rfl
  obtain ⟨more, split⟩ := List.head?_eq_some_iff.1 next
  have first : SpellsRules rs ts (us.map m.token ++ l :: rest) := by
    rw [split]
    exact h.behind (.limit (limit ends) limits)
  exact first.append second

end Cddl
