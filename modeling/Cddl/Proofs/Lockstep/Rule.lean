import Cddl.Proofs.Lockstep.Group
/-!
# Rules side by side

The last of the productions, and the search for the next rule.  The search compares offsets; the two sides of it keep in
step if the comparison comes out the same on both.
-/
namespace Cddl

theorem Token.Alike.startsRule {V : View} {t t' u u' : Token} (ht : t.Alike V t') (hu : u.Alike V u') :
    Production.startsRule t u = Production.startsRule t' u' := by
  simp only [Production.startsRule, Production.assignment?, ht.is, hu.is, hu.body]

theorem Token.Alike.startsGroupEntry {V : View} {t t' u u' : Token} (ht : t.Alike V t') (hu : u.Alike V u') :
    Production.startsGroupEntry t u = Production.startsGroupEntry t' u' := by
  simp only [Production.startsGroupEntry, Production.startsOccurrence, Production.isValue, ht.is, ht.body, hu.is]

namespace Production

open Reader

variable {V : View} {E : Fault → Fault → WindowRel} {R S : WindowRel} {nested nested' : Nested}

theorem lockstep_assignment (hf : Forward V E R S) : Lockstep E R S Eq assignment assignment := by
  refine .current hf.outer fun t t' ht => ?_
  have same : assignment? t' = assignment? t := by unfold assignment?; rw [ht.body]
  rw [same]
  cases assigned : assignment? t with
  | none => exact .within (.fail hf.outer _)
  | some a =>
    have more : ∀ u, u = t → u.is .endOfInput = false := by
      rintro u rfl
      obtain ⟨m, hm, body⟩ : ∃ m, m ≠ Mark.endOfInput ∧ u.body = .mark m := by
        unfold assignment? at assigned
        split at assigned
        case h_1 body => exact ⟨_, by decide, body⟩
        case h_2 body => exact ⟨_, by decide, body⟩
        case h_3 body => exact ⟨_, by decide, body⟩
        case h_4 => cases assigned
      exact Token.not_is (Token.is_iff.2 body) hm
    exact .map (.advance hf more) fun _ _ _ => rfl

theorem lockstep_groupBody (hR : Abreast V E R) (a : Assignment) : Lockstep E R R Eq (groupBody a) (groupBody a) := by
  refine .current hR fun t t' ht => .within (.upcoming hR fun u u' hu => .pure ?_)
  rw [ht.startsGroupEntry hu]

theorem lockstep_emptyGroup (hR : Abreast V E R) :
    Lockstep E R R (Same (Group.respan V.span)) emptyGroup emptyGroup := by
  refine .current hR fun t t' ht => .within (.map (.spanFrom hR ht.location) fun s s' hs => ?_)
  simp only [Same, Group.respan, respanGroupChoices, GroupChoice.respan, respanListedEntries, hs]

/-- At every depth of nesting. -/
theorem lockstep_nested (hf : Forward V E R R) : ∀ n, (Production.nested n).Lockstep V E R (Production.nested n)
  | 0 => ⟨.fail hf.outer _, lockstep_emptyGroup hf.outer⟩
  | n + 1 => lockstep_level hf (lockstep_nested hf n)

section
variable (hf : Forward V E R S) (hn : nested.Lockstep V E S nested')
include hf hn

theorem lockstep_ruleBody {l l' : Location} (hl : V.place l l') {i i' : Identifier}
    (hi : i.respan V.span = i'.respan V.span) {p p' : Option GenericParams}
    (hp : p.map (GenericParams.respan V.span) = p'.map (GenericParams.respan V.span)) (a : Assignment) :
    Lockstep E R S (Same (Rule.respan V.span)) (ruleBody nested l i p a) (ruleBody nested' l' i' p' a) := by
  refine .bind (lockstep_groupBody hf.outer a) ?_
  rintro b _ rfl
  refine .ite Iff.rfl (fun _ => ?_) fun _ => ?_
  · refine .bind (lockstep_groupEntry hf hn) fun e e' he => .map (.spanFrom hf.inner hl) fun s s' hs => ?_
    simp only [Same] at he
    simp only [Same, Rule.respan, RuleBody.respan, GroupRule.respan, hi, hp, he, hs]
  · refine .bind (lockstep_typeExpr hf (lockstep_type1 hf hn)) fun t t' ht =>
      .map (.spanFrom hf.inner hl) fun s s' hs => ?_
    simp only [Same] at ht
    simp only [Same, Rule.respan, RuleBody.respan, TypeRule.respan, hi, hp, ht, hs]

/-- A rule keeps in step with itself. -/
theorem lockstep_rule : Lockstep E R S (Same (Rule.respan V.span)) (rule nested) (rule nested') := by
  have on := hf.again
  refine .current hf.outer fun t t' ht => .within (.bind (.expect hf _ (by decide)) fun n n' hname => ?_)
  refine .bind (lockstep_ifAngle hf.inner (lockstep_genericParams on)) fun p p' hp => ?_
  refine .bind (lockstep_assignment on) ?_
  rintro a _ rfl
  refine .when hf.inner _ ?_ (lockstep_ruleBody on hn ht.location hname.identifier hp a)
  exact fun w w' hw => .error (hf.inner.parenthesis hw.1 hw.2)

end

/-! ## The way to the next rule -/

/-- The two sides find the next rule at the same time if they agree on which names stand past the offsets given. -/
theorem lockstep_resynchronize (hf : Forward V E R R) {failedAt failedAt' : Int}
    (past : ∀ w w', R w w' → w.current.is .name = true →
      (failedAt < w.current.location.offset ↔ failedAt' < w'.current.location.offset)) :
    ∀ n, Lockstep E R R Eq (resynchronize failedAt n) (resynchronize failedAt' n)
  | 0 => .pure rfl
  | n + 1 => by
    intro w w' hw
    have ends := (hf.outer.current hw).is .endOfInput
    have starts := (hf.outer.current hw).startsRule (hf.outer.upcoming hw)
    have step (at_ : Int) (u : Window) : (resynchronize at_ (n + 1)).run.run u =
        (if u.current.is .endOfInput || (startsRule u.current u.upcoming && at_ < u.current.location.offset) then
          return () else (do let _ ← advance; resynchronize at_ n) : Reader Unit).run.run u := rfl
    rw [step, step, ← ends, ← starts]
    have found : (startsRule w.current w.upcoming && decide (failedAt < w.current.location.offset)) =
        (startsRule w.current w.upcoming && decide (failedAt' < w'.current.location.offset)) := by
      cases name : w.current.is .name with
      | false => simp only [startsRule, name, Bool.false_and]
      | true => rw [decide_eq_decide.2 (past w w' hw name)]
    rw [← found]
    split
    · exact .ok rfl hw
    · rename_i on
      have more : w.current.is .endOfInput = false := by
        rw [Bool.or_eq_true, not_or] at on
        exact Bool.eq_false_iff.2 on.1
      exact Lockstep.bind (.advance hf fun _ h => h) (fun _ _ _ => lockstep_resynchronize hf past n) w w' ⟨hw, more⟩

end Production
end Cddl
