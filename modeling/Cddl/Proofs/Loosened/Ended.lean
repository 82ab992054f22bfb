import Cddl.Proofs.Joined
import Cddl.Proofs.Loosened.Moved
import Cddl.Proofs.Loosened.Rule
/-!
# Where loosened tokens end

Loosened tokens end with the input as the others do, so rules up to the end of a text are still rules up to the end of a
text.
-/
namespace Cddl

variable {before after after' ts us vs all : List Token} {k : Int} {l l' : Location}

/-- A run that has no fault ends in the end of input, also where tokens are moved. -/
theorem Cursor.Run.exists_ended {s : Text} {e : Token} (run : (Cursor.start s).Run (before ++ after') none)
    (moved : List.Forall₂ (Token.Moved k) (after ++ [e]) after') :
    ∃ us l, after' = us ++ [.endAt l] ∧
      List.Forall₂ (Token.Moved k) (after ++ [e, e]) (us ++ [.endAt l, .endAt l]) := by
  obtain ⟨us, e', rfl⟩ : ∃ us e', after' = us ++ [e'] := by
    rcases List.eq_nil_or_concat after' with rfl | ⟨us, e', rfl⟩
    · have length := moved.length_eq
      simp at length
    · exact ⟨us, e', List.concat_eq_append⟩
  obtain ⟨vs, l, ended⟩ := run.exists_end rfl
  rw [← List.append_assoc] at ended
  obtain rfl := (List.cons.inj (List.append_inj' ended rfl).2).1
  have last : e.Moved k (.endAt l) := by
    have reversed := List.forall₂_reverse_iff.2 moved
    rw [List.reverse_concat, List.reverse_concat] at reversed
    cases reversed with
    | cons last _ => exact last
  refine ⟨us, l, rfl, ?_⟩
  have twice := List.rel_append moved (List.Forall₂.cons last .nil)
  simpa using twice

/-- Rules up to the end of input are still rules up to the end of input, also where other tokens come before them. -/
theorem SpellsRules.survives_behind {rs : List Rule} (h : SpellsRules rs ts [.endAt l, .endAt l])
    (loose : Loosened (ts ++ [.endAt l, .endAt l]) all) (ended : us ++ [.endAt l', .endAt l'] = vs ++ all) :
    ∃ xs, us = vs ++ xs ∧ all = xs ++ [.endAt l', .endAt l'] ∧
      ∃ rs', rs'.map Rule.erase = rs.map Rule.erase ∧ SpellsRules rs' xs [.endAt l', .endAt l'] := by
  obtain ⟨xs, behind, rfl, left, rs', hrs, rules⟩ := h.survives loose
  obtain ⟨e, _, rfl, _, _, left⟩ := left.exists_mark (m := .endOfInput) rfl
  obtain ⟨e', _, rfl, _, _, left⟩ := left.exists_mark (m := .endOfInput) rfl
  cases left
  rw [← List.append_assoc] at ended
  obtain ⟨rfl, ends⟩ := List.append_inj' ended rfl
  rw [← ends] at rules
  exact ⟨xs, rfl, by rw [ends], rs', hrs, rules⟩

theorem SpellsRules.survives_ended {rs : List Rule} (h : SpellsRules rs ts [.endAt l, .endAt l])
    (loose : Loosened (ts ++ [.endAt l, .endAt l]) (us ++ [.endAt l', .endAt l'])) :
    ∃ rs', rs'.map Rule.erase = rs.map Rule.erase ∧ SpellsRules rs' us [.endAt l', .endAt l'] := by
  have ended : us ++ [.endAt l', .endAt l'] = [] ++ (us ++ [.endAt l', .endAt l']) := rfl
  obtain ⟨_, rfl, _, rules⟩ := h.survives_behind loose ended
  exact rules

end Cddl
