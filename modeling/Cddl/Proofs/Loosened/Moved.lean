import Cddl.Proofs.Loosened
/-!
# Tokens that are moved and loosened

Tokens that are moved on together, all as far, see what they saw (`Loosened.of_moved`), also where they are put in front
of tokens that stay, if no number comes first there (`Loosened.of_moved_append`).
-/
namespace Cddl

open Production

variable {t t' u u' : Token} {ts ts' rest : List Token} {k : Int} {stop stop' : Location}

theorem uintAt?_moved (h : t.Moved k t') (h' : u.Moved k u') : uintAt? t'.stop u' = uintAt? t.stop u := by
  have place : u'.location.offset = t'.stop.offset ↔ u.location.offset = t.stop.offset := by
    have stop : t'.stop.offset = t'.location.offset + t'.text.length := rfl
    have stop' : t.stop.offset = t.location.offset + t.text.length := rfl
    rw [stop, stop', h'.offset, h.offset, h.text]
    omega
  unfold uintAt?
  rw [h'.body]
  split
  · simp only [place]
  · rfl

theorem uintAt?_of_not_isUint (h : t.isUint = false) : uintAt? stop t = none := by
  unfold Token.isUint at h
  unfold uintAt?
  split
  · rename_i body
    rw [body] at h
    cases h
  · rfl

/-- Only what tokens are decides whether they begin an entry. -/
theorem beginsGroupEntry_congr (h : List.Forall₂ (fun t t' => t'.body = t.body) ts ts') :
    beginsGroupEntry ts' = beginsGroupEntry ts := by
  cases h with
  | nil => rfl
  | cons first more =>
    cases more with
    | nil => rfl
    | cons second _ =>
      rw [beginsGroupEntry_cons_cons, beginsGroupEntry_cons_cons, startsOccurrence_congr first, isValue_congr first]
      simp only [Token.is_congr second]

/-- Moved tokens in front of others that are not joined to them see what they saw. -/
theorem Loosened.of_moved_append (h : List.Forall₂ (Token.Moved k) ts ts') (more : Loosened rest rest)
    (apart : ∀ t, rest.head? = some t → t.isUint = false) : Loosened (ts ++ rest) (ts' ++ rest) := by
  induction h with
  | nil => exact more
  | @cons t t' ts ts' first moved ih =>
    have bodies : List.Forall₂ (fun t t' => t'.body = t.body) (ts ++ rest) (ts' ++ rest) :=
      List.rel_append (moved.imp fun _ _ h => h.body) (List.forall₂_same.2 fun _ _ => rfl)
    refine .same ⟨first.body, first.text, fun _ => ?_, fun _ => beginsGroupEntry_congr bodies⟩ ih
    cases moved with
    | cons second _ => exact uintAt?_moved first second
    | nil =>
      cases rest with
      | nil => rfl
      | cons u rest =>
        have none (stop : Location) : uintAt? stop u = none := uintAt?_of_not_isUint (apart u rfl)
        exact (none _).trans (none _).symm

/-- Tokens that are all moved on as far see what they saw. -/
theorem Loosened.of_moved (h : List.Forall₂ (Token.Moved k) ts ts') : Loosened ts ts' := by
  have whole := Loosened.of_moved_append h .nil (fun _ h => by cases h)
  rwa [List.append_nil, List.append_nil] at whole

theorem Token.moved_refl (t : Token) : t.Moved 0 t := ⟨rfl, rfl, (Int.add_zero _).symm⟩

theorem Loosened.refl (ts : List Token) : Loosened ts ts :=
  .of_moved (k := 0) (List.forall₂_same.2 fun t _ => t.moved_refl)

end Cddl
