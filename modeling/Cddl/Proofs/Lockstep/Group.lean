import Cddl.Proofs.Lockstep.Type
/-!
# Occurrences and groups side by side

The places of tokens decide in one case how the grammar goes on: an upper bound belongs to an asterisk only if it stands
right after it.
-/
namespace Cddl

section
variable {V : View} {E : Fault → Fault → WindowRel} {R S : WindowRel} {w w' : Window}

/-- What two windows move on over, and what they show then. -/
theorem Lockstep.advance_from (hf : Forward V E R S) (hw : R w w') (more : w.current.is .endOfInput = false) :
    Lockstep E (fun u u' => u = w ∧ u' = w')
      (fun v v' => S v v' ∧ v.current = w.upcoming ∧ v'.current = w'.upcoming)
      (fun t t' => t = w.current ∧ t' = w'.current) Reader.advance Reader.advance := by
  rintro u u' ⟨hu, hu'⟩
  rw [hu, hu']
  have out := hf.advance hw more
  rw [Reader.run_advance, Reader.run_advance] at out ⊢
  generalize moved : w.advance = x at out ⊢
  generalize moved' : w'.advance = x' at out ⊢
  obtain ⟨_ | t, v⟩ := x <;> obtain ⟨_ | t', v'⟩ := x' <;> cases out
  case error.error fault => exact .error fault
  case ok.ok value windows =>
    exact .ok ⟨Window.eq_current_of_advance moved, Window.eq_current_of_advance moved'⟩
      ⟨windows, (Window.advance_eq_ok moved).2.1, (Window.advance_eq_ok moved').2.1⟩

end

namespace Production

open Reader

variable {α γ : Type} {V : View} {E : Fault → Fault → WindowRel} {R S : WindowRel} {nested nested' : Nested}

/-! ## Occurrences -/

theorem run_joinedUint (t : Token) (w : Window) : (joinedUint t).run.run w = (match uintAt? t.stop w.current with
    | some n => (do let _ ← advance; return some n : Reader (Option Int))
    | none => return none).run.run w := rfl

theorem lockstep_asterisk (hf : Forward V E R S) (lower : Option Int) :
    Lockstep E (R.Where (·.is .asterisk = true)) S Eq (asterisk lower) (asterisk lower) := by
  rintro w w' ⟨hw, star⟩
  have joined := hf.outer.joined hw star
  refine Lockstep.bind (.advance_from hf hw (Token.not_is star (by decide))) (fun t t' ht => ?_) w w' ⟨rfl, rfl⟩
  obtain ⟨rfl, rfl⟩ := ht
  refine .map (Q := Eq) ?_ fun _ _ h => by rw [h]
  rintro v v' ⟨hv, shows, shows'⟩
  rw [run_joinedUint, run_joinedUint, shows, shows', ← joined]
  cases upper : uintAt? w.current.stop w.upcoming with
  | none => exact .ok rfl hv
  | some n =>
    have number : v.current.is .endOfInput = false := by
      rw [shows]
      unfold uintAt? at upper
      split at upper
      · rename_i body
        exact Token.not_is_of_body body (by simp)
      · cases upper
    exact Lockstep.map (.advance hf.again fun _ h => h) (fun _ _ _ => rfl) v v' ⟨hv, number⟩

theorem lockstep_occur? (hf : Forward V E R R) : Lockstep E R R Eq occur? occur? := by
  have one {t : Token} {m : Mark} (body : t.body = .mark m) (hm : m ≠ .endOfInput) (o : Occur) :
      Lockstep E (R.Where (· = t)) R Eq (do let _ ← advance; return some o) (do let _ ← advance; return some o) :=
    .map (.advance hf fun u hu => hu ▸ Token.not_is_of_body body (by simpa using hm)) fun _ _ _ => rfl
  refine .current hf.outer fun t t' ht => ?_
  rw [← ht.body]
  cases body : t.body with
  | mark m =>
    cases m with
    | optional => exact one body (by decide) _
    | plus => exact one body (by decide) _
    | asterisk =>
      refine .map (Q := Eq) ?_ fun _ _ h => congrArg some h
      exact (lockstep_asterisk hf none).before fun _ _ hw => ⟨hw.1, Token.is_iff.2 (hw.2 ▸ body)⟩
    | _ => exact .stay rfl
  | value v =>
    cases v with
    | uint n =>
      rintro w w' ⟨hw, rfl⟩
      have same := (hf.outer.upcoming hw).is .asterisk
      have step (u : Window) : (do
          if (← upcoming).is .asterisk then
            let _ ← advance
            return some (← asterisk (some n))
          else return none : Reader (Option Occur)).run.run u = (if u.upcoming.is .asterisk then (do
            let _ ← advance
            return some (← asterisk (some n)))
          else return none : Reader (Option Occur)).run.run u := rfl
      rw [step, step, ← same]
      split
      · rename_i star
        have more : w.current.is .endOfInput = false := Token.not_is_of_body body (by simp)
        refine Lockstep.bind (.advance_from hf hw more) (fun _ _ _ => .map (Q := Eq) ?_ fun _ _ h => congrArg some h)
          w w' ⟨rfl, rfl⟩
        refine (lockstep_asterisk hf (some n)).before fun v v' hv => ⟨hv.1, ?_⟩
        rw [hv.2.1]
        exact star
      · exact .ok rfl hw
    | _ => exact .stay rfl
  | _ => exact .stay rfl

theorem lockstep_occurrence? (hf : Forward V E R R) :
    Lockstep E R R (Same (Option.map (Occurrence.respan V.span))) occurrence? occurrence? := by
  refine .current hf.outer fun t t' ht => .within (.bind (lockstep_occur? hf) ?_)
  rintro o _ rfl
  cases o with
  | none => exact .pure rfl
  | some o =>
    refine .map (.spanFrom hf.outer ht.location) fun s s' hs => ?_
    simp only [Same, Option.map_some, Occurrence.respan, hs]

/-! ## Keys -/

theorem lockstep_arrow (hf : Forward V E R R) : Lockstep E R R Eq arrow arrow := by
  have plain (cut : Bool) : Lockstep E R R Eq (do let _ ← expect .arrow .arrow; return cut)
      (do let _ ← expect .arrow .arrow; return cut) := .map (.expect hf _ (by decide)) fun _ _ _ => rfl
  exact .when hf.outer _ (.bind (.pastMark hf (by decide)) fun _ _ _ => plain true) (plain false)

theorem lockstep_colonKey (hR : Abreast V E R) {t t' : Type1} (ht : t.respan V.span = t'.respan V.span) :
    Lockstep E R R (Same (MemberKey.respan V.span)) (colonKey t) (colonKey t') := by
  have same := congrArg colonKey? ht
  rw [← colonKey?_respan, ← colonKey?_respan] at same
  unfold colonKey
  cases key : colonKey? t with
  | none =>
    rw [key, Option.map_none] at same
    rw [Option.map_eq_none_iff.1 same.symm]
    exact .fail hR _
  | some k =>
    rw [key, Option.map_some] at same
    obtain ⟨k', key', hk⟩ := Option.map_eq_some_iff.1 same.symm
    rw [key']
    exact .pure hk.symm

/-! ## Entries -/

/-- The name and arguments that a type consists of, if it does. -/
def loneName? (t : Type1) : Option (Identifier × Option GenericArgs) :=
  match t.operand, t.operator with
  | .typename ident args _, none => some (ident, args)
  | _, _ => none

theorem loneName?_respan (f : Option Span → Option Span) (t : Type1) :
    (loneName? t).map (fun x => (x.1.respan f, respanArgs f x.2)) = loneName? (t.respan f) := by
  obtain ⟨operand, operator, _⟩ := t
  cases operand <;> cases operator <;> rfl

theorem keylessEntry_eq (nested : Nested) (start : Location) (occurrence : Option Occurrence) (first : Type1) :
    keylessEntry nested start occurrence first = (do
      match if ← at? .typeChoice then none else loneName? first with
      | some (ident, args) =>
        let span := some (← spanFrom start)
        return .named ⟨occurrence, ident, args, span⟩ span
      | none =>
        let others ← moreChoices (type1 nested)
        let type : TypeExpr :=
          ⟨typeChoice first :: others, some (← spanFrom ((first.span.map Span.start).getD start))⟩
        keyedEntry start occurrence none type) := by
  obtain ⟨operand, operator, _⟩ := first
  refine congrArg (at? .typeChoice >>= ·) (funext fun more => ?_)
  cases operand <;> cases operator <;> cases more <;> rfl

/-- The place where a type begins, or else the one where its entry does. -/
theorem place_start {t t' : Type1} {l l' : Location} (ht : t.respan V.span = t'.respan V.span) (hl : V.place l l') :
    V.place ((t.span.map Span.start).getD l) ((t'.span.map Span.start).getD l') := by
  have span := congrArg Type1.span ht
  rw [Type1.span_respan, Type1.span_respan] at span
  exact V.start span hl

section
variable (hf : Forward V E R S) (hn : nested.Lockstep V E S nested') {l l' : Location} (hl : V.place l l')
  {o o' : Option Occurrence} (ho : o.map (Occurrence.respan V.span) = o'.map (Occurrence.respan V.span))

include hl ho in
theorem lockstep_keyedEntry (hR : Abreast V E R) {k k' : Option MemberKey} {t t' : TypeExpr}
    (hk : k.map (MemberKey.respan V.span) = k'.map (MemberKey.respan V.span))
    (ht : t.respan V.span = t'.respan V.span) :
    Lockstep E R R (Same (GroupEntry.respan V.span)) (keyedEntry l o k t) (keyedEntry l' o' k' t') := by
  refine .map (.spanFrom hR hl) fun s s' hs => ?_
  simp only [Same, GroupEntry.respan, KeyedEntry.respan, respanKey_eq_map, ho, hk, ht, hs]

include hf hn

theorem lockstep_innerType :
    Lockstep E S S (Same (TypeExpr.respan V.span)) (typeExpr (type1 nested)) (typeExpr (type1 nested')) :=
  lockstep_typeExpr hf.again (lockstep_type1 hf.again hn)

include hl ho

/-- An entry from the type on that its key is given. -/
theorem lockstep_keyed {k k' : MemberKey} (hk : k.respan V.span = k'.respan V.span) :
    Lockstep E S S (Same (GroupEntry.respan V.span))
      (do let type ← typeExpr (type1 nested); keyedEntry l o (some k) type)
      (do let type ← typeExpr (type1 nested'); keyedEntry l' o' (some k') type) :=
  .bind (lockstep_innerType hf hn) fun _ _ ht => lockstep_keyedEntry hl ho hf.inner (congrArg some hk) ht

theorem lockstep_parenthesizedEntry : Lockstep E (R.Where (·.is .leftParen = true)) S (Same (GroupEntry.respan V.span))
    (parenthesizedEntry nested l o) (parenthesizedEntry nested' l' o') := by
  have on := hf.again
  refine .bind (.pastMark hf (by decide)) fun _ _ _ =>
    .bind (lockstep_closedBy on hn.group (by decide)) fun g g' hg => ?_
  have span : V.span g.span = V.span g'.span := by
    have := congrArg Group.span hg
    rwa [Group.span_respan, Group.span_respan] at this
  refine .at? hf.inner _ fun b => .within (.at? hf.inner _ fun b' => .within (.ite Iff.rfl (fun _ => ?_) fun _ => ?_))
  · refine .bind (lockstep_arrow on) fun _ _ _ => lockstep_keyed hf hn hl ho ?_
    simp only [MemberKey.respan, enclosedKey_respan, hg, span]
  · refine .map (.spanFrom hf.inner hl) fun s s' hs => ?_
    simp only [Same] at hg
    simp only [Same, GroupEntry.respan, ho, hg, hs]

theorem lockstep_keylessEntry {t t' : Type1} (ht : t.respan V.span = t'.respan V.span) :
    Lockstep E S S (Same (GroupEntry.respan V.span)) (keylessEntry nested l o t) (keylessEntry nested' l' o' t') := by
  have on := hf.again
  have choices : Lockstep E S S (Same (GroupEntry.respan V.span))
      (do
        let others ← moreChoices (type1 nested)
        let type : TypeExpr := ⟨typeChoice t :: others, some (← spanFrom ((t.span.map Span.start).getD l))⟩
        keyedEntry l o none type)
      (do
        let others ← moreChoices (type1 nested')
        let type : TypeExpr := ⟨typeChoice t' :: others, some (← spanFrom ((t'.span.map Span.start).getD l'))⟩
        keyedEntry l' o' none type) := by
    refine .bind (lockstep_moreChoices on (lockstep_type1 on hn)) fun as as' has => ?_
    refine .bind (.spanFrom hf.inner (place_start ht hl)) fun s s' hs => lockstep_keyedEntry hl ho hf.inner rfl ?_
    simp only [Same] at has
    simp only [TypeExpr.respan, respanTypeChoices_eq_map, List.map_cons, respan_typeChoice ht, has, hs]
  have same := congrArg loneName? ht
  rw [← loneName?_respan, ← loneName?_respan] at same
  rw [keylessEntry_eq, keylessEntry_eq]
  refine .at? hf.inner _ fun
    | true => choices.within
    | false => .within ?_
  cases name : loneName? t with
  | none =>
    rw [name, Option.map_none] at same
    rw [Option.map_eq_none_iff.1 same.symm]
    exact choices
  | some x =>
    rw [name, Option.map_some] at same
    obtain ⟨x', name', hx⟩ := Option.map_eq_some_iff.1 same.symm
    obtain ⟨hi, ha⟩ := Prod.mk.inj hx
    rw [name']
    refine .map (.spanFrom hf.inner hl) fun s s' hs => ?_
    simp only [Same, GroupEntry.respan, NamedEntry.respan, ho, hi, ha, hs]

theorem lockstep_typeEntry : Lockstep E R S (Same (GroupEntry.respan V.span)) (typeEntry nested l o)
    (typeEntry nested' l' o') := by
  have on := hf.again
  refine .bind (lockstep_type1 hf hn) fun t t' ht => .when hf.inner _ ?_ ?_
  · refine .bind (lockstep_colonKey (hf.inner.where _) ht) fun k k' hk => ?_
    exact .bind (.pastMark on (by decide)) fun _ _ _ => lockstep_keyed hf hn hl ho hk
  refine .at? hf.inner _ fun b => .within (.at? hf.inner _ fun b' => .within (.ite Iff.rfl (fun _ => ?_) fun _ => ?_))
  · refine .bind (lockstep_arrow on) fun cut cut' hc => .bind (.spanFrom hf.inner (place_start ht hl)) fun s s' hs => ?_
    refine lockstep_keyed hf hn hl ho ?_
    simp only [Same] at ht
    simp only [MemberKey.respan, ht, hc, hs]
  · exact lockstep_keylessEntry hf hn hl ho ht

omit hl ho

/-! ## Groups -/

theorem lockstep_groupEntry :
    Lockstep E R S (Same (GroupEntry.respan V.span)) (groupEntry nested) (groupEntry nested') := by
  refine .current hf.outer fun t t' ht => .within ?_
  refine .bind (lockstep_occurrence? hf.back) fun o o' ho => .when hf.outer _ ?_ ?_
  · exact lockstep_parenthesizedEntry hf hn ht.location ho
  · exact lockstep_typeEntry hf hn ht.location ho

theorem lockstep_listedEntry :
    Lockstep E R S (Same (ListedEntry.respan V.span)) (listedEntry nested) (listedEntry nested') := by
  refine .bind (lockstep_groupEntry hf hn) fun e e' he =>
    .when hf.inner _ (.map (.pastMark hf.again (by decide)) fun _ _ _ => ?_) (.pure ?_)
  all_goals
    simp only [Same] at he
    simp only [Same, ListedEntry.respan, he]

theorem lockstep_groupChoice : Lockstep E R R (Same (GroupChoice.respan V.span)) (groupChoice nested)
    (groupChoice nested') := by
  have entry := (lockstep_listedEntry hf hn).after fun _ _ => hf.widen
  have entries : Lockstep E R R (Same (List.map (ListedEntry.respan V.span)))
      (manyWhile (fun t => !endsChoice t) (listedEntry nested))
      (manyWhile (fun t => !endsChoice t) (listedEntry nested')) := by
    refine .manyWhile hf.outer (fun t t' ht => ?_) entry.within
    simp only [endsChoice, ht.is]
  refine .current hf.outer fun t t' ht => .within (.bind entries fun es es' hes => ?_)
  refine .map (.spanFrom hf.outer ht.location) fun s s' hs => ?_
  simp only [Same] at hes
  simp only [Same, GroupChoice.respan, respanListedEntries_eq_map, hes, hs]

theorem lockstep_group : Lockstep E R R (Same (Group.respan V.span)) (group nested) (group nested') := by
  refine .current hf.outer fun t t' ht => .within (.bind (lockstep_groupChoice hf hn) fun c c' hc => ?_)
  refine .bind (.manyAfter hf.back (lockstep_groupChoice hf hn) (by decide)) fun cs cs' hcs => ?_
  refine .map (.spanFrom hf.outer ht.location) fun s s' hs => ?_
  simp only [Same] at hc hcs
  simp only [Same, Group.respan, respanGroupChoices_eq_map, List.map_cons, hc, hcs, hs]

/-- A level of nesting more. -/
theorem lockstep_level : (⟨fun w => type1 nested w, fun w => group nested w⟩ : Nested).Lockstep V E R
    ⟨fun w => type1 nested' w, fun w => group nested' w⟩ :=
  ⟨(lockstep_type1 hf hn).after fun _ _ => hf.widen, lockstep_group hf hn⟩

end

end Production
end Cddl
