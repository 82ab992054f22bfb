import Cddl.Proofs.Loosened.Entry
/-!
# Rules with ranges taken apart

A rule that is defined with an equals sign is read as a type or as an entry by the two tokens behind it.  The relation
keeps what an equals sign sees, so the rule stays what it was (`SpellsRules.survives`).
-/
namespace Cddl

open Production

variable {ts after all : List Token}

theorem SpellsMoreParams.survives {params : List GenericParam} (h : SpellsMoreParams params ts after) : ∀ {all},
    Loosened (ts ++ after) all → ∃ ts' after', all = ts' ++ after' ∧ Loosened after after' ∧
      ∃ params', params'.map GenericParam.erase = params.map GenericParam.erase ∧
        SpellsMoreParams params' ts' after' := by
  induction h with
  | nil free => exact fun loose => ⟨[], _, rfl, loose, [], rfl, .nil (loose.respelled.not_next (by decide) free)⟩
  | cons mark name _ ih =>
    intro all loose
    obtain ⟨s', rest', rfl, mark', _, loose⟩ := Loosened.exists_mark loose mark
    obtain ⟨t', rest', rfl, name', kept, loose⟩ := Loosened.exists_mark loose name
    obtain ⟨ts', after', rfl, behind, params', hparams, more⟩ := ih loose
    refine ⟨s' :: t' :: ts', after', rfl, behind, _, ?_, .cons mark' name' more⟩
    simp only [List.map_cons, GenericParam.erase, erase_identifier kept.text, hparams]

theorem SpellsParams.survives {params : Option GenericParams} (h : SpellsParams params ts after)
    (loose : Loosened (ts ++ after) all) : ∃ ts' after', all = ts' ++ after' ∧ Loosened after after' ∧
      ∃ params', params'.map GenericParams.erase = params.map GenericParams.erase ∧
        SpellsParams params' ts' after' := by
  cases h with
  | none free => exact ⟨[], all, rfl, loose, Option.none, rfl, .none (loose.respelled.not_next (by decide) free)⟩
  | @some o t c params ts after opening name more closing =>
    have split : o :: t :: (ts ++ [c]) ++ after = o :: t :: (ts ++ c :: after) := by simp
    rw [split] at loose
    obtain ⟨o', rest', rfl, opening', _, loose⟩ := loose.exists_mark opening
    obtain ⟨t', rest', rfl, name', kept, loose⟩ := loose.exists_mark name
    obtain ⟨ts', rest', rfl, loose, params', hparams, more'⟩ := more.survives loose
    obtain ⟨c', after', rfl, closing', _, behind⟩ := loose.exists_mark closing
    refine ⟨o' :: t' :: (ts' ++ [c']), after', by simp, behind, _, ?_, .some opening' name' more' closing'⟩
    simp only [Option.map_some, GenericParams.erase, List.map_cons, GenericParam.erase,
      erase_identifier kept.text, hparams]

/-- A rule is still spelled, and read as the same kind of thing, when ranges are taken apart. -/
theorem SpellsRule.survives {r : Rule} (h : SpellsRule r ts after) (loose : Loosened (ts ++ after) all) :
    ∃ ts' after', all = ts' ++ after' ∧ Loosened after after' ∧
      ∃ r', r'.erase = r.erase ∧ SpellsRule r' ts' after' := by
  -- what the assignment sees decides, and it sees the same
  have kind {a : Assignment} {eq eq' : Token} {us us' : List Token} (assigned : assignment? eq = some a)
      (kept : eq.Kept eq' us us') : readsEntry a us' = readsEntry a us := by
    refine readsEntry_eq fun define => kept.entry ?_
    have mark := is_mark_of_assignment? assigned
    rwa [define] at mark
  cases h with
  | @type name eq gp a ty ps us _ isName params assigned start reads type =>
    have split : name :: (ps ++ eq :: us) ++ after = name :: (ps ++ eq :: (us ++ after)) := by simp
    rw [split] at loose
    obtain ⟨name', rest', rfl, isName', named, loose⟩ := loose.exists_mark isName
    obtain ⟨ps', rest', rfl, loose, gp', hgp, params'⟩ := params.survives loose
    obtain ⟨eq', rest', rfl, _, kept, loose⟩ := loose.exists_mark (is_mark_of_assignment? assigned)
    obtain ⟨us', after', rfl, behind, type'⟩ := type.survives _ loose
    obtain ⟨ty', hty, spelled⟩ := type' eq'.stop
    have start' := loose.not_next_append (type.ne_nil rfl) (spelled.ne_nil rfl) (by decide) start
    refine ⟨name' :: (ps' ++ eq' :: us'), after', by simp, behind, _, ?_,
      .type isName' params' ((assignment?_congr kept.body).trans assigned) start' ((kind assigned kept).trans reads)
        spelled⟩
    simp only [Rule.erase, RuleBody.erase, TypeRule.erase, erase_identifier named.text, hgp, hty]
  | @group name eq gp a e ps us _ isName params assigned start reads entry =>
    have split : name :: (ps ++ eq :: us) ++ after = name :: (ps ++ eq :: (us ++ after)) := by simp
    rw [split] at loose
    obtain ⟨name', rest', rfl, isName', named, loose⟩ := loose.exists_mark isName
    obtain ⟨ps', rest', rfl, loose, gp', hgp, params'⟩ := params.survives loose
    obtain ⟨eq', rest', rfl, _, kept, loose⟩ := loose.exists_mark (is_mark_of_assignment? assigned)
    obtain ⟨us', after', rfl, behind, entry'⟩ := entry.survives _ loose
    obtain ⟨e', he, spelled⟩ := entry' eq'.stop
    have start' := loose.not_next_append (entry.ne_nil rfl) (spelled.ne_nil rfl) (by decide) start
    refine ⟨name' :: (ps' ++ eq' :: us'), after', by simp, behind, _, ?_,
      .group isName' params' ((assignment?_congr kept.body).trans assigned) start' ((kind assigned kept).trans reads)
        spelled⟩
    simp only [Rule.erase, RuleBody.erase, GroupRule.erase, erase_identifier named.text, hgp, he]

/-- **Rules are still spelled when ranges in them are taken apart.** -/
theorem SpellsRules.survives {rs : List Rule} (h : SpellsRules rs ts after) : ∀ {all}, Loosened (ts ++ after) all →
    ∃ ts' after', all = ts' ++ after' ∧ Loosened after after' ∧
      ∃ rs', rs'.map Rule.erase = rs.map Rule.erase ∧ SpellsRules rs' ts' after' := by
  induction h with
  | nil => exact fun loose => ⟨[], _, rfl, loose, [], rfl, .nil⟩
  | cons first _ ih =>
    intro all loose
    rw [List.append_assoc] at loose
    obtain ⟨ts', rest', rfl, loose, r', hr, first'⟩ := first.survives loose
    obtain ⟨us', after', rfl, behind, rs', hrs, more'⟩ := ih loose
    exact ⟨ts' ++ us', after', by simp, behind, r' :: rs', by simp only [List.map_cons, hr, hrs], .cons first' more'⟩

end Cddl
