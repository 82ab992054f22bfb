import Cddl.Proofs.Alone
/-!
# Groups that are extended

What a group is extended by stands alone behind the assignment, up to the next rule or the end of input, and is read as
an entry between brackets is (`parse_extendGroup`).
-/
namespace Cddl

open Production

variable {m : Mark} {t t' c o name eq name' eq' : Token} {ts ts' after : List Token} {e e' : GroupEntry} {r : Rule}
  {rs : List Rule} {d : Document} {shown : Text} {j : Int}

/-! ## Rules of one entry -/

/-- The operand of a type that has nothing else. -/
def TypeExpr.sole? : TypeExpr → Option Type2
  | ⟨[⟨⟨x, none, _⟩, _⟩], _⟩ => some x
  | _ => none

/-- The entry of a map that has nothing else, not even a comma behind it. -/
def Type2.soleEntry? : Type2 → Option GroupEntry
  | .map ⟨[⟨[⟨e, false⟩], _⟩], _⟩ _ => some e
  | _ => none

/-- The entry of a rule for a map of that entry alone. -/
def Rule.mapEntry? : Rule → Option GroupEntry
  | ⟨.type r, _⟩ => r.value.sole?.bind Type2.soleEntry?
  | ⟨.group _, _⟩ => none

theorem erase_of_sole? {ty : TypeExpr} {x : Type2} (h : ty.sole? = some x) : ty.erase = .of x.erase := by
  unfold TypeExpr.sole? at h
  split at h <;> cases h
  rfl

theorem erase_of_soleEntry? {x : Type2} (h : x.soleEntry? = some e) : x.erase = .map (.of e.erase) none := by
  unfold Type2.soleEntry? at h
  split at h <;> cases h
  rw [Type2.erase, Group.erase_of]

theorem exists_of_mapEntry? (h : r.mapEntry? = some e) :
    ∃ ty s, r = ⟨.type ty, s⟩ ∧ ty.value.erase = .of (Bracket.map.type2 (.of e.erase) none) := by
  obtain ⟨body, s⟩ := r
  cases body with
  | group => cases h
  | type ty =>
    obtain ⟨x, sole, entry⟩ := Option.bind_eq_some_iff.1 h
    exact ⟨ty, s, rfl, by rw [erase_of_sole? sole, erase_of_soleEntry? entry]; rfl⟩

theorem sole?_erase : ∀ ty : TypeExpr, ty.erase.sole? = ty.sole?.map Type2.erase
  | ⟨[], _⟩ | ⟨[⟨⟨_, none, _⟩, _⟩], _⟩ | ⟨⟨⟨_, some _, _⟩, _⟩ :: _, _⟩ | ⟨⟨⟨_, none, _⟩, _⟩ :: _ :: _, _⟩ => rfl

theorem soleEntry?_erase (x : Type2) : x.erase.soleEntry? = x.soleEntry?.map GroupEntry.erase := by
  cases x with
  | map g s =>
    match g with
    | ⟨[], _⟩ | ⟨⟨[], _⟩ :: _, _⟩ | ⟨⟨⟨_, true⟩ :: _, _⟩ :: _, _⟩ | ⟨⟨⟨_, false⟩ :: _ :: _, _⟩ :: _, _⟩
    | ⟨⟨[⟨_, false⟩], _⟩ :: _ :: _, _⟩ | ⟨[⟨[⟨_, false⟩], _⟩], _⟩ => rfl
  | _ => rfl

theorem mapEntry?_erase (r : Rule) : r.erase.mapEntry? = r.mapEntry?.map GroupEntry.erase := by
  obtain ⟨body, s⟩ := r
  cases body with
  | group => rfl
  | type ty =>
    have erased : (Rule.mk (.type ty) s).erase.mapEntry? = ty.value.erase.sole?.bind Type2.soleEntry? := rfl
    rw [erased, sole?_erase, Option.bind_map]
    simp only [Rule.mapEntry?, Option.map_bind, Function.comp_def, soleEntry?_erase]

/-! ## Entries behind an assignment -/

/-- What a rule that extends a group is spelled with. -/
theorem SpellsRule.entry_of_extendGroup (h : SpellsRule r (name :: eq :: ts) after) (sign : eq.is .extendGroup = true) :
    ∃ e s, r = ⟨.group ⟨identifier name, none, true, e, s⟩, s⟩ ∧ Spells (.entry e) eq.stop ts after := by
  have free : eq.is .leftAngle = false := Token.not_is sign (by decide)
  have assigned : assignment? eq = some .extendGroup := by rw [assignment?, Token.is_iff.1 sign]
  generalize hall : name :: eq :: ts = all at h
  cases h with
  | type _ params found _ kind =>
    obtain ⟨rfl, behind⟩ := List.cons.inj hall
    obtain ⟨rfl, rfl⟩ := params.none_of_assigned behind free
    obtain ⟨rfl, rfl⟩ := List.cons.inj behind
    cases assigned.symm.trans found
    cases kind
  | group _ params found _ _ entry =>
    obtain ⟨rfl, behind⟩ := List.cons.inj hall
    obtain ⟨rfl, rfl⟩ := params.none_of_assigned behind free
    obtain ⟨rfl, rfl⟩ := List.cons.inj behind
    cases assigned.symm.trans found
    exact ⟨_, _, rfl, entry⟩

theorem SpellsRules.sole (h : SpellsRules rs ts after) (sole : rs.length = 1) :
    ∃ r, rs = [r] ∧ SpellsRule r ts after := by
  cases h with
  | nil => cases sole
  | cons first more =>
    cases more with
    | cons => simp at sole
    | nil =>
      rw [List.append_nil]
      exact ⟨_, rfl, by simpa using first⟩

variable (isName : name.is .name = true) (sign : eq.is .extendGroup = true)
include isName sign

/-- An entry that the tokens behind the assignment spell is read. -/
theorem exists_parse_of_extendGroup (start : nextIs .leftParen ts = false) {l : Token}
    (hl : endBehind (name :: eq :: ts) = l) (entry : Spells (.entry e) eq.stop ts [l, l]) (shown : Text) :
    ∃ d s, parseTokens (name :: eq :: ts) shown = .ok d ∧
      d.rules = [⟨.group ⟨identifier name, none, true, e, s⟩, s⟩] := by
  have assigned : assignment? eq = some .extendGroup := by rw [assignment?, Token.is_iff.1 sign]
  have params : SpellsParams none [] (eq :: (ts ++ [l, l])) := .none (Token.not_is sign (by decide))
  have rule := SpellsRule.group isName params assigned start rfl entry
  have rules := SpellsRules.cons rule .nil
  rw [List.append_nil, List.nil_append] at rules
  subst hl
  obtain ⟨d, read, hd⟩ := exists_parseTokens rules shown
  exact ⟨d, _, read, hd⟩

/-- What is read behind the assignment is an entry that the tokens there spell. -/
theorem entry_of_parse_extendGroup (whole : Unended ts) (read : parseTokens (name :: eq :: ts) shown = .ok d)
    (sole : d.rules.length = 1) :
    ∃ e s l, l.is .endOfInput = true ∧ d.rules = [⟨.group ⟨identifier name, none, true, e, s⟩, s⟩] ∧
      Spells (.entry e) eq.stop ts [l, l] := by
  have unended : Unended (name :: eq :: ts) := by
    simp [not_end_of_is isName (by decide), not_end_of_is sign (by decide), whole]
  obtain ⟨r, rules, rule⟩ := (spells_of_parseTokens read unended).sole sole
  obtain ⟨e, s, rfl, entry⟩ := rule.entry_of_extendGroup sign
  exact ⟨e, s, _, endBehind_ends _, rules, entry⟩

omit isName sign

/-! ## Entries of a map -/

section Map

variable (frame : Bracket.map.Around name eq o c)
include frame

/-- A map of an entry that the tokens between the braces spell is read. -/
theorem exists_parse_of_mapEntry {l : Token} (hl : endBehind (name :: eq :: o :: (ts ++ [c])) = l)
    (entry : Spells (.entry e) o.stop ts [c, l, l]) (shown : Text) :
    ∃ d r e', parseTokens (name :: eq :: o :: (ts ++ [c])) shown = .ok d ∧ d.rules = [r] ∧ r.mapEntry? = some e' ∧
      e'.erase = e.erase := by
  obtain ⟨s, s', group⟩ := spells_soleEntry entry frame.closing Bracket.map.closing_mem
  obtain ⟨d, read, rules⟩ := frame.exists_parse hl group shown
  obtain ⟨r, rules, same⟩ := List.map_eq_singleton_iff.1 rules
  rw [Group.erase_of] at same
  have erased : r.mapEntry?.map GroupEntry.erase = some e.erase := by
    rw [← mapEntry?_erase, same]
    rfl
  obtain ⟨e', made, he⟩ := Option.map_eq_some_iff.1 erased
  exact ⟨d, r, e', read, rules, made, he⟩

/-- The entry of a map that is read is spelled by the tokens between the braces. -/
theorem entry_of_parse_mapEntry (whole : Unended ts) (read : parseTokens (name :: eq :: o :: (ts ++ [c])) shown = .ok d)
    (rules : d.rules = [r]) (made : r.mapEntry? = some e) :
    ∃ e' l, l.is .endOfInput = true ∧ e'.erase = e.erase ∧ Spells (.entry e') o.stop ts [c, l, l] := by
  obtain ⟨ty, s, rfl, value⟩ := exists_of_mapEntry? made
  obtain ⟨g, l, ends, hg, group⟩ := frame.spells_of_value whole read rules value
  obtain ⟨e', he, entry⟩ := group.entry_of_group hg
  exact ⟨e', l, ends, he, entry⟩

end Map

/-! ## Extensions as entries -/

theorem Token.Moved.symm (h : t.Moved j t') : t'.Moved (-j) t where
  body := h.body.symm
  text := h.text.symm
  offset := by
    have := h.offset
    omega

theorem Unended.moved (h : Unended ts) (moved : List.Forall₂ (Token.Moved j) ts ts') : Unended ts' := by
  induction moved with
  | nil => exact h
  | cons first _ ih =>
    obtain ⟨head, tail⟩ := List.forall_mem_cons.1 h
    exact List.forall_mem_cons.2 ⟨(Token.is_congr first.body _).trans head, ih tail⟩

/-- **A group is extended by what may stand alone in a map, and by the same entry**, wherever the map stands. -/
theorem parse_extendGroup (isName : name.is .name = true) (sign : eq.is .extendGroup = true)
    (frame : Bracket.map.Around name' eq' o c) (whole : Unended ts) (start : nextIs .leftParen ts = false)
    (moved : List.Forall₂ (Token.Moved j) ts ts') (shown shown' : Text) :
    ((∃ d, parseTokens (name :: eq :: ts) shown = .ok d ∧ d.rules.length = 1) ↔
      ∃ d r e, parseTokens (name' :: eq' :: o :: (ts' ++ [c])) shown' = .ok d ∧ d.rules = [r] ∧ r.mapEntry? = some e) ∧
    ∀ d r d' r' e', parseTokens (name :: eq :: ts) shown = .ok d → d.rules = [r] →
      parseTokens (name' :: eq' :: o :: (ts' ++ [c])) shown' = .ok d' → d'.rules = [r'] → r'.mapEntry? = some e' →
        ∃ e s, r = ⟨.group ⟨identifier name, none, true, e, s⟩, s⟩ ∧ e.erase = e'.erase := by
  have closed : c.limits = true := limits_of_closer frame.closing Bracket.map.closing_mem
  have back : List.Forall₂ (Token.Moved (-j)) ts' ts := moved.flip.imp fun _ _ h => h.symm
  have whole' : Unended ts' := whole.moved moved
  have ended {l : Token} (h : l.is .endOfInput = true) : l.limits = true := Token.limits_of_is h (by decide)
  have mapped {d : Document} (read : parseTokens (name :: eq :: ts) shown = .ok d) (sole : d.rules.length = 1) :
      ∃ e s, d.rules = [⟨.group ⟨identifier name, none, true, e, s⟩, s⟩] ∧ ∃ d' r' e',
        parseTokens (name' :: eq' :: o :: (ts' ++ [c])) shown' = .ok d' ∧ d'.rules = [r'] ∧ r'.mapEntry? = some e' ∧
          e'.erase = e.erase := by
    obtain ⟨e, s, l, ends, rules, entry⟩ := entry_of_parse_extendGroup isName sign whole read sole
    obtain ⟨e₁, he₁, entry'⟩ : SpellsAlike (.entry e) o.stop ts' [c, endBehind _, endBehind _] :=
      entry.alike_moved rfl moved (ended ends) closed o.stop
    obtain ⟨d', r', e', read', rules', made, he'⟩ := exists_parse_of_mapEntry frame rfl entry' shown'
    exact ⟨e, s, rules, d', r', e', read', rules', made, he'.trans he₁⟩
  refine ⟨⟨fun ⟨d, read, sole⟩ => ?_, fun ⟨d', r', e', read', rules', made⟩ => ?_⟩, ?_⟩
  · obtain ⟨_, _, _, d', r', e', read', rules', made, _⟩ := mapped read sole
    exact ⟨d', r', e', read', rules', made⟩
  · obtain ⟨e₁, l, ends, _, entry⟩ := entry_of_parse_mapEntry frame whole' read' rules' made
    obtain ⟨e, _, entry'⟩ : SpellsAlike (.entry e₁) eq.stop ts [endBehind _, endBehind _] :=
      entry.alike_moved rfl back closed (ended (endBehind_ends (name :: eq :: ts))) eq.stop
    obtain ⟨d, s, read, rules⟩ := exists_parse_of_extendGroup isName sign start rfl entry' shown
    exact ⟨d, read, by rw [rules]; rfl⟩
  · intro d r d' r' e' read rules read' rules' made
    obtain ⟨e, s, same, d₁, r₁, e₁, read₁, rules₁, made₁, he₁⟩ := mapped read (by rw [rules]; rfl)
    cases read'.symm.trans read₁
    cases rules'.symm.trans rules₁
    cases made.symm.trans made₁
    cases rules.symm.trans same
    exact ⟨e, s, rfl, he₁.symm⟩

/-- An entry with an occurrence and a key. -/
theorem parse_extendGroup_sample :
    let a : Token := ⟨.mark .name, "a", ⟨1, 1, 0⟩⟩
    let extend : Token := ⟨.mark .extendGroup, "//=", ⟨1, 2, 1⟩⟩
    let entry (n : Int) : List Token := [⟨.mark .optional, "?", ⟨1, n + 1, n⟩⟩, ⟨.mark .name, "k", ⟨1, n + 2, n + 1⟩⟩,
      ⟨.mark .colon, ":", ⟨1, n + 3, n + 2⟩⟩, ⟨.mark .name, "int", ⟨1, n + 4, n + 3⟩⟩]
    ∃ d e s d' r' e', parseTokens (a :: extend :: entry 4) [] = .ok d ∧
      d.rules = [⟨.group ⟨identifier a, none, true, e, s⟩, s⟩] ∧
      parseTokens (a :: ⟨.mark .assign, "=", ⟨1, 2, 1⟩⟩ :: ⟨.mark .leftBrace, "\x7b", ⟨1, 3, 2⟩⟩ ::
        (entry 3 ++ [⟨.mark .rightBrace, "\x7d", ⟨1, 10, 9⟩⟩])) [] = .ok d' ∧
      d'.rules = [r'] ∧ r'.mapEntry? = some e' ∧ e.erase = e'.erase := by
  intro a extend entry
  have read : ∃ d, parseTokens (a :: extend :: entry 4) [] = .ok d ∧ decide (d.rules.length = 1) = true :=
    exists_parseTokens_of_any (by decide +kernel)
  obtain ⟨d, read, sole⟩ := read
  have isName : a.is .name = true := rfl
  have sign : extend.is .extendGroup = true := rfl
  have frame : Bracket.map.Around a ⟨.mark .assign, "=", ⟨1, 2, 1⟩⟩ ⟨.mark .leftBrace, "\x7b", ⟨1, 3, 2⟩⟩
      ⟨.mark .rightBrace, "\x7d", ⟨1, 10, 9⟩⟩ := ⟨rfl, rfl, rfl, rfl⟩
  have moved : List.Forall₂ (Token.Moved (-1)) (entry 4) (entry 3) :=
    .cons ⟨rfl, rfl, rfl⟩ (.cons ⟨rfl, rfl, rfl⟩ (.cons ⟨rfl, rfl, rfl⟩ (.cons ⟨rfl, rfl, rfl⟩ .nil)))
  have alike := parse_extendGroup isName sign frame (by unfold Unended; decide) rfl moved [] []
  obtain ⟨d', r', e', read', rules', made⟩ := alike.1.1 ⟨d, read, of_decide_eq_true sole⟩
  obtain ⟨r, rules⟩ := List.length_eq_one_iff.1 (of_decide_eq_true sole)
  obtain ⟨e, s, rfl, same⟩ := alike.2 d r d' r' e' read rules read' rules' made
  exact ⟨d, e, s, d', r', e', read, rules, read', rules', made, same⟩

end Cddl
