import Cddl.Proofs.Lockstep
/-!
# Names and types side by side
-/
namespace Cddl

/-- From related windows, the readers of what is nested come out alike. -/
structure Nested.Lockstep (V : View) (E : Fault → Fault → WindowRel) (S : WindowRel) (nested nested' : Nested) :
    Prop where
  type1 : Cddl.Lockstep E S S (Same (Type1.respan V.span)) nested.type1 nested'.type1
  group : Cddl.Lockstep E S S (Same (Group.respan V.span)) nested.group nested'.group

namespace Production

open Reader

variable {α γ : Type} {V : View} {E : Fault → Fault → WindowRel} {R S : WindowRel} {nested nested' : Nested}

/-! ## Names and parameters -/

theorem lockstep_inAngles {g : α → γ} {r r' : Reader α} (hf : Forward V E R S) (hr : Lockstep E S S (Same g) r r') :
    Lockstep E R S (fun x y => V.place x.1 y.1 ∧ x.2.map g = y.2.map g) (inAngles r) (inAngles r') := by
  have on := hf.again
  refine .bind (.expect hf _ (by decide)) fun t t' ht => .bind hr fun a a' ha => ?_
  refine .bind (.manyAfter on hr (by decide)) fun as as' has =>
    .map (.expect on _ (by decide)) fun _ _ _ => ⟨ht.location, ?_⟩
  simp only [Same, List.map_cons] at ha has ⊢
  rw [ha, has]

theorem lockstep_genericParam (hf : Forward V E R S) :
    Lockstep E R S (Same (GenericParam.respan V.span)) genericParam genericParam := by
  refine .map (.expect hf _ (by decide)) fun t t' ht => ?_
  have name := ht.identifier
  have span : V.span (identifier t).span = V.span (identifier t').span := congrArg Identifier.span name
  simp only [Same, GenericParam.respan, name, span]

theorem lockstep_genericParams (hf : Forward V E R S) :
    Lockstep E R S (Same (GenericParams.respan V.span)) genericParams genericParams := by
  refine .bind (lockstep_inAngles hf (lockstep_genericParam hf.again)) fun x x' hx => ?_
  refine .map (.spanFrom hf.inner hx.1) fun s s' hs => ?_
  simp only [Same, GenericParams.respan, hx.2, hs]

theorem lockstep_genericArg (hn : nested.Lockstep V E S nested') :
    Lockstep E S S (Same (GenericArg.respan V.span)) (genericArg nested) (genericArg nested') := by
  refine .map hn.type1 fun t t' ht => ?_
  have span := congrArg Type1.span ht
  rw [Type1.span_respan, Type1.span_respan] at span
  simp only [Same, GenericArg.respan] at ht ⊢
  rw [ht, span]

theorem lockstep_genericArgs (hf : Forward V E R S) (hn : nested.Lockstep V E S nested') :
    Lockstep E R S (Same (GenericArgs.respan V.span)) (genericArgs nested) (genericArgs nested') := by
  refine .bind (lockstep_inAngles hf (lockstep_genericArg hn)) fun x x' hx => ?_
  refine .map (.spanFrom hf.inner hx.1) fun s s' hs => ?_
  simp only [Same, GenericArgs.respan, respanGenericArgs_eq_map, hx.2, hs]

theorem lockstep_ifAngle {g : α → γ} {r r' : Reader α} (hR : Abreast V E R) (hr : Lockstep E R R (Same g) r r') :
    Lockstep E R R (Same (Option.map g)) (ifAngle r) (ifAngle r') := by
  refine .when hR _ (.within (.map hr fun a a' ha => ?_)) (.pure rfl)
  exact congrArg some ha

/-! ## Types -/

/-- A choice is no more than its type. -/
theorem respan_typeChoice {f : Option Span → Option Span} {t t' : Type1} (h : t.respan f = t'.respan f) :
    (typeChoice t).respan f = (typeChoice t').respan f := by
  have span := congrArg Type1.span h
  rw [Type1.span_respan, Type1.span_respan] at span
  simp only [typeChoice, TypeChoice.respan, h, span]

theorem lockstep_moreChoices {r r' : Reader Type1} (hf : Forward V E R R)
    (hr : Lockstep E R R (Same (Type1.respan V.span)) r r') :
    Lockstep E R R (Same (List.map (TypeChoice.respan V.span))) (moreChoices r) (moreChoices r') :=
  .manyAfter hf (.map hr fun _ _ ht => respan_typeChoice ht) (by decide)

theorem lockstep_typeExpr {r r' : Reader Type1} (hf : Forward V E R S)
    (hr : Lockstep E R S (Same (Type1.respan V.span)) r r') :
    Lockstep E R S (Same (TypeExpr.respan V.span)) (typeExpr r) (typeExpr r') := by
  have more := lockstep_moreChoices hf.again (hr.before fun _ _ => hf.widen)
  refine .current hf.outer fun t t' ht => .within ?_
  refine .bind hr fun a a' ha => .bind more fun as as' has => .map (.spanFrom hf.inner ht.location) fun s s' hs => ?_
  simp only [Same] at has
  simp only [Same, TypeExpr.respan, respanTypeChoices_eq_map, List.map_cons, respan_typeChoice ha, has, hs]

/-- Inside brackets both sides go on alike, and the bracket that closes them is on both. -/
theorem lockstep_closedBy {g : α → γ} {r r' : Reader α} {m : Mark} (hf : Forward V E S S)
    (hr : Lockstep E S S (Same g) r r') (hm : m ≠ .endOfInput) :
    Lockstep E S S (Same g) (closedBy m r) (closedBy m r') :=
  .bind hr fun _ _ ha => .map (.expect hf _ hm) fun _ _ _ => ha

section
variable (hf : Forward V E S S) (hn : nested.Lockstep V E S nested')
include hf hn

theorem lockstep_ifArgs : Lockstep E S S (Same (respanArgs V.span)) (ifAngle (genericArgs nested))
    (ifAngle (genericArgs nested')) := by
  have same : respanArgs V.span = Option.map (GenericArgs.respan V.span) := funext fun a => respanArgs_eq_map _ a
  rw [same]
  exact lockstep_ifAngle hf.outer (lockstep_genericArgs hf hn)

theorem lockstep_typename {t t' : Token} (ht : t.Alike V t') :
    Lockstep E S S (Same (Type2.respan V.span)) (typename nested t) (typename nested' t') := by
  refine .bind (lockstep_ifArgs hf hn) fun a a' ha => .map (.spanFrom hf.outer ht.location) fun s s' hs => ?_
  simp only [Same] at ha
  simp only [Same, Type2.respan, ht.identifier, ha, hs]

theorem lockstep_unwrap {l l' : Location} (hl : V.place l l') :
    Lockstep E S S (Same (Type2.respan V.span)) (unwrap nested l) (unwrap nested' l') := by
  refine .bind (.expect hf _ (by decide)) fun t t' ht => .bind (lockstep_ifArgs hf hn) fun a a' ha =>
    .map (.spanFrom hf.outer hl) fun s s' hs => ?_
  simp only [Same] at ha
  simp only [Same, Type2.respan, ht.identifier, ha, hs]

theorem lockstep_choiceFrom {l l' : Location} (hl : V.place l l') :
    Lockstep E S S (Same (Type2.respan V.span)) (choiceFrom nested l) (choiceFrom nested' l') := by
  refine .when hf.outer _ (.bind (.pastMark hf (by decide)) fun _ _ _ => ?_)
    (.bind (.expect hf _ (by decide)) fun t t' ht => ?_)
  · refine .bind (lockstep_closedBy hf hn.group (by decide)) fun g g' hg =>
      .map (.spanFrom hf.outer hl) fun s s' hs => ?_
    simp only [Same] at hg
    simp only [Same, Type2.respan, hg, hs]
  · refine .bind (lockstep_ifArgs hf hn) fun a a' ha => .map (.spanFrom hf.outer hl) fun s s' hs => ?_
    simp only [Same] at ha
    simp only [Same, Type2.respan, ht.identifier, ha, hs]

theorem lockstep_inParens : Lockstep E S S (Same (TypeExpr.respan V.span))
    (closedBy .rightParen (typeExpr nested.type1)) (closedBy .rightParen (typeExpr nested'.type1)) :=
  lockstep_closedBy hf (lockstep_typeExpr hf hn.type1) (by decide)

end

/-- What a mark opens, after it: read alike, and put with its span into a type. -/
theorem lockstep_opened {g : α → γ} {r r' : Reader α} {m : Mark} {t t' : Token} {f : α → Option Span → Type2}
    (hf : Forward V E R S) (hr : Lockstep E S S (Same g) r r') (ht : t.Alike V t')
    (hc : ∀ a a' s s', g a = g a' → V.span s = V.span s' → (f a s).respan V.span = (f a' s').respan V.span)
    (hm : m ≠ .endOfInput) :
    Lockstep E (R.Where (·.is m = true)) S (Same (Type2.respan V.span))
      (do let _ ← advance; let a ← r; return f a (some (← spanFrom t.location)))
      (do let _ ← advance; let a ← r'; return f a (some (← spanFrom t'.location))) :=
  .bind (.pastMark hf hm) fun _ _ _ => .bind hr fun a a' ha => .map (.spanFrom hf.inner ht.location) fun _ _ hs =>
    hc a a' _ _ ha hs

/-- A range token spells the same type wherever it stands. -/
theorem respan_rangeType1 {t t' : Token} (ht : t.Alike V t') (lower upper : Literal) (inclusive : Bool)
    {l l' : Location} (hl : V.place l l') :
    (rangeType1 t lower upper inclusive l).respan V.span = (rangeType1 t' lower upper inclusive l').respan V.span := by
  have onFrom (n : Int) : V.span (some ⟨t.location.shift n, l⟩) = V.span (some ⟨t'.location.shift n, l'⟩) :=
    V.stretch (V.shift ht.location n) hl
  have upTo (n : Int) :
      V.span (some ⟨t.location, t.location.shift n⟩) = V.span (some ⟨t'.location, t'.location.shift n⟩) :=
    V.stretch ht.location (V.shift ht.location n)
  have whole : V.span (some ⟨t.location, l⟩) = V.span (some ⟨t'.location, l'⟩) := V.stretch ht.location hl
  simp only [rangeType1, Type1.respan, Type2.respan, respanOperator, Operator.respan, ht.text, onFrom, upTo, whole]

section
variable (hf : Forward V E R S) (hn : nested.Lockstep V E S nested')
include hf hn

theorem lockstep_tagged {major : Nat} {number : Option Nat} {l l' : Location} (hl : V.place l l') :
    Lockstep E (R.Where (·.body = .tag major number)) S (Same (Type2.respan V.span)) (tagged nested major number l)
      (tagged nested' major number l') := by
  have on := hf.again
  refine .ite Iff.rfl (fun _ => (.within (.fail hf.outer _))) fun _ => ?_
  refine .bind (.advance hf fun t h => Token.not_is_of_body h nofun) fun _ _ _ => ?_
  refine .at? hf.inner _ fun b => .ite Iff.rfl (fun six => ?_) fun _ => .within ?_
  · obtain ⟨-, rfl⟩ : _ ∧ b = true := by simpa using six
    refine .bind (.pastMark on (by decide)) fun _ _ _ => .bind (lockstep_inParens on hn) fun t t' ht =>
      .map (.spanFrom hf.inner hl) fun s s' hs => ?_
    simp only [Same] at ht
    simp only [Same, Type2.respan, ht, hs]
  · refine .map (.spanFrom hf.inner hl) fun s s' hs => ?_
    simp only [Same, Type2.respan, hs]

theorem lockstep_marked {m : Mark} {t t' : Token} (ht : t.Alike V t') :
    Lockstep E (R.Where (·.is m = true)) S (Same (Type2.respan V.span)) (marked nested m t) (marked nested' m t') := by
  have on := hf.again
  cases m with
  | name => exact .bind (.pastMark hf (by decide)) fun _ _ _ => lockstep_typename on hn ht
  | leftParen =>
    refine lockstep_opened hf (lockstep_inParens on hn) ht (fun a a' s s' ha hs => ?_) (by decide)
    simp only [Type2.respan, ha, hs]
  | leftBrace =>
    refine lockstep_opened hf (lockstep_closedBy on hn.group (by decide)) ht (fun a a' s s' ha hs => ?_) (by decide)
    simp only [Type2.respan, ha, hs]
  | leftBracket =>
    refine lockstep_opened hf (lockstep_closedBy on hn.group (by decide)) ht (fun a a' s s' ha hs => ?_) (by decide)
    simp only [Type2.respan, ha, hs]
  | tilde => exact .bind (.pastMark hf (by decide)) fun _ _ _ => lockstep_unwrap on hn ht.location
  | ampersand => exact .bind (.pastMark hf (by decide)) fun _ _ _ => lockstep_choiceFrom on hn ht.location
  | hash =>
    refine .bind (.pastMark hf (by decide)) fun _ _ _ => .map (.spanFrom hf.inner ht.location) fun s s' hs => ?_
    simp only [Same, Type2.respan, hs]
  | _ => exact .within (.fail hf.outer _)

theorem lockstep_type2 : Lockstep E R S (Same (Type2.respan V.span)) (type2 nested) (type2 nested') := by
  refine .current hf.outer fun t t' ht => ?_
  rw [← ht.body]
  cases body : t.body with
  | value v =>
    refine .bind (.advance hf fun u hu => hu ▸ Token.not_is_of_body body nofun) fun _ _ _ => ?_
    refine .map (.spanFrom hf.inner ht.location) fun s s' hs => ?_
    simp only [Same, Type2.respan, hs]
  | tag major number => exact (lockstep_tagged hf hn ht.location).before fun _ _ hw => ⟨hw.1, hw.2 ▸ body⟩
  | range => exact .within (.fail hf.outer _)
  | mark m => exact (lockstep_marked hf hn ht).before fun _ _ hw => ⟨hw.1, Token.is_iff.2 (hw.2 ▸ body)⟩

theorem lockstep_operator? :
    Lockstep E R R (Same (respanOperator V.span)) (operator? nested) (operator? nested') := by
  refine .current hf.outer fun t t' ht => ?_
  rw [← ht.operatorSymbol?]
  cases symbol : operatorSymbol? t with
  | none => exact .stay rfl
  | some symbol =>
    have more : ∀ u, u = t → u.is .endOfInput = false := by
      rintro u rfl
      unfold operatorSymbol? at symbol
      split at symbol
      case isTrue range => exact Token.not_is range (by decide)
      case isFalse =>
        split at symbol
        case isTrue control => exact Token.not_is control (by decide)
        case isFalse => cases symbol
    refine .after (.bind (.advance hf more) fun _ _ _ => ?_) fun _ _ => hf.widen
    refine .bind (.before (lockstep_type2 hf hn) fun _ _ => hf.widen) fun a a' ha => ?_
    refine .map (.spanFrom hf.inner ht.location) fun s s' hs => ?_
    simp only [Same] at ha
    simp only [Same, respanOperator, Operator.respan, ha, hs]

theorem lockstep_type1 : Lockstep E R S (Same (Type1.respan V.span)) (type1 nested) (type1 nested') := by
  have operands {t t' : Token} (ht : t.Alike V t') : Lockstep E R S (Same (Type1.respan V.span))
      (do
        let operand ← type2 nested
        let operator ← operator? nested
        return ⟨operand, operator, some (← spanFrom t.location)⟩ : Reader Type1)
      (do
        let operand ← type2 nested'
        let operator ← operator? nested'
        return ⟨operand, operator, some (← spanFrom t'.location)⟩ : Reader Type1) := by
    refine .bind (lockstep_type2 hf hn) fun a a' ha => ?_
    refine .bind (lockstep_operator? hf.again hn) fun o o' ho => .map (.spanFrom hf.inner ht.location) fun s s' hs => ?_
    simp only [Same] at ha ho
    simp only [Same, Type1.respan, ha, ho, hs]
  refine .current hf.outer fun t t' ht => ?_
  rw [← ht.body]
  cases body : t.body with
  | range lower upper inclusive =>
    have more : ∀ u, u = t → u.is .endOfInput = false := by
      rintro u rfl
      exact Token.not_is_of_body body nofun
    refine .bind (.advance hf more) fun _ _ _ => .lastStop hf.inner fun l l' hl => .pure ?_
    exact respan_rangeType1 ht lower upper inclusive hl
  | _ => exact .within (operands ht)

end

end Production
end Cddl
