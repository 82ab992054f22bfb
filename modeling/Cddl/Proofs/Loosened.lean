import Cddl.Proofs.Layout.Document
import Cddl.Proofs.Token.Spaced
/-!
# Ranges that are taken apart

`Loosened ts ts'` says that the tokens `ts'` are the tokens `ts` with some ranges in three tokens each, and with the
others where they were or further on.  Two tokens look further than the next one: an asterisk at what is joined to it,
and an assignment at the two tokens behind it.  For both the relation says that they see the same as before.
-/
namespace Cddl

open Production

variable {pre : Location} {m m' : Mark} {t t' u a b c o : Token} {ts ts' us us' all after after' rest : List Token}

/-! ## The relation -/

/-- The unsigned integer that some tokens begin with right at a place. -/
def joinedTo (stop : Location) (ts : List Token) : Option Int := ts.head?.bind (uintAt? stop)

/-- A token that stands before other tokens than it did, and looks the same and sees the same. -/
structure Token.Kept (t t' : Token) (ts ts' : List Token) : Prop where
  body : t'.body = t.body
  text : t'.text = t.text
  bound : t.is .asterisk = true → joinedTo t'.stop ts' = joinedTo t.stop ts
  entry : t.is .assign = true → beginsGroupEntry ts' = beginsGroupEntry ts

inductive Loosened : List Token → List Token → Prop
  | nil : Loosened [] []
  | same {t t' : Token} {ts ts' : List Token} (kept : t.Kept t' ts ts') (more : Loosened ts ts') :
      Loosened (t :: ts) (t' :: ts')
  | range {t a b c : Token} {lower upper : Literal} {inclusive : Bool} {ts ts' : List Token}
      (body : t.body = .range lower upper inclusive) (first : a.body = .value lower)
      (operator : operatorSymbol? b = some (.range inclusive)) (last : c.body = .value upper)
      (more : Loosened ts ts') : Loosened (t :: ts) (a :: b :: c :: ts')

theorem is_rangeOperator {inclusive : Bool} (h : operatorSymbol? b = some (.range inclusive)) :
    b.is .rangeOperator = true := by
  unfold operatorSymbol? at h
  split at h
  · assumption
  split at h
  · cases h
  · cases h

theorem operatorSymbol?_congr (body : t'.body = t.body) (text : t'.text = t.text) :
    operatorSymbol? t' = operatorSymbol? t := by
  unfold operatorSymbol?
  rw [Token.is_congr body, Token.is_congr body, text]

theorem assignment?_congr (body : t'.body = t.body) : assignment? t' = assignment? t := by
  unfold assignment?
  rw [body]

theorem nextIs_append (h : ts ≠ []) : nextIs m (ts ++ us) = nextIs m ts := by
  cases ts with
  | nil => exact absurd rfl h
  | cons => rfl

theorem beginsJoined_eq (stop : Location) (ts : List Token) : beginsJoined stop ts = (joinedTo stop ts).isSome := by
  cases ts <;> rfl

namespace Loosened

/-- Wherever the grammar looks one token ahead, it sees no difference. -/
theorem respelled (h : Loosened ts ts') : Respelled ts ts' := by
  induction h with
  | nil => exact .nil
  | same kept _ ih => exact .same kept.body ih
  | range body first operator last _ ih => exact .range body first (is_rangeOperator operator) last ih

/-- What is left of a token that is no range. -/
theorem exists_kept (h : Loosened (t :: ts) all)
    (single : ∀ lower upper inclusive, t.body ≠ .range lower upper inclusive) :
    ∃ t' ts', all = t' :: ts' ∧ t.Kept t' ts ts' ∧ Loosened ts ts' := by
  cases h with
  | same kept more => exact ⟨_, _, rfl, kept, more⟩
  | range body => exact absurd body (single _ _ _)

theorem exists_mark (h : Loosened (t :: ts) all) (mark : t.is m = true) :
    ∃ t' ts', all = t' :: ts' ∧ t'.is m = true ∧ t.Kept t' ts ts' ∧ Loosened ts ts' := by
  obtain ⟨t', ts', rfl, kept, more⟩ := h.exists_kept fun _ _ _ => not_range_of_is mark
  exact ⟨t', ts', rfl, (Token.is_congr kept.body m).trans mark, kept, more⟩

theorem exists_body {x : Token.Body} (h : Loosened (t :: ts) all) (body : t.body = x)
    (single : ∀ lower upper inclusive, x ≠ .range lower upper inclusive) :
    ∃ t' ts', all = t' :: ts' ∧ t'.body = x ∧ t.Kept t' ts ts' ∧ Loosened ts ts' := by
  obtain ⟨t', ts', rfl, kept, more⟩ := h.exists_kept (by rwa [body])
  exact ⟨t', ts', rfl, kept.body.trans body, kept, more⟩

theorem exists_value {v : Literal} (h : Loosened (t :: ts) all) (body : t.body = .value v) :
    ∃ t' ts', all = t' :: ts' ∧ t'.body = .value v ∧ t.Kept t' ts ts' ∧ Loosened ts ts' :=
  h.exists_body body fun _ _ _ h => by cases h

theorem exists_tag {major : Nat} {number : Option Nat} (h : Loosened (t :: ts) all)
    (body : t.body = .tag major number) :
    ∃ t' ts', all = t' :: ts' ∧ t'.body = .tag major number ∧ t.Kept t' ts ts' ∧ Loosened ts ts' :=
  h.exists_body body fun _ _ _ h => by cases h

end Loosened

/-! ## Operands -/

/-- Whatever the tokens of a phrase and those behind are loosened to, they still spell it, up to the spans in it. -/
def Phrase.Survives (p : Phrase) (ts after : List Token) : Prop := ∀ all, Loosened (ts ++ after) all →
  ∃ ts' after', all = ts' ++ after' ∧ Loosened after after' ∧ ∀ pre, SpellsAlike p pre ts' after'

variable {p q : Phrase} {s : Option Span} {v : Literal} {g : Group} {ty : TypeExpr} {x : Type2} {op : Option Operator}
  {args : Option GenericArgs} {as : List GenericArg} {cs : List TypeChoice} {t₁ : Type1} {symbol : RangeOrControl}

theorem survives_literal (body : t.body = .value v) : (Phrase.type2 (.literal v s)).Survives [t] after := by
  intro all loose
  obtain ⟨t', ts', rfl, body', _, more⟩ := loose.exists_value body
  refine ⟨[t'], ts', rfl, more, fun _ => ⟨_, ?_, .literal body'⟩⟩
  rfl

theorem survives_typename (name : t.is .name = true) (inner : (Phrase.args args).Survives ts after) :
    (Phrase.type2 (.typename (identifier t) args s)).Survives (t :: ts) after := by
  intro all loose
  obtain ⟨t', rest', rfl, name', kept, more⟩ := Loosened.exists_mark loose name
  obtain ⟨ts', after', rfl, behind, inner'⟩ := inner _ more
  refine ⟨t' :: ts', after', rfl, behind, fun _ => ?_⟩
  obtain ⟨args', hargs, spelled⟩ := inner' t'.stop
  exact ⟨_, by simp only [Type2.erase, erase_identifier kept.text, hargs], .typename name' spelled⟩

/-- What stands between two marks. -/
theorem Phrase.Survives.enclosed (inner : p.Survives ts (c :: after)) (opening : o.is m = true)
    (closing : c.is m' = true) (loose : Loosened (o :: (ts ++ c :: after)) all) :
    ∃ o' ts' c' after', all = o' :: (ts' ++ c' :: after') ∧ o'.is m = true ∧ c'.is m' = true ∧ Loosened after after' ∧
      ∀ pre, SpellsAlike p pre ts' (c' :: after') := by
  obtain ⟨o', rest', rfl, opening', _, more⟩ := loose.exists_mark opening
  obtain ⟨ts', behind', rfl, behind, inner'⟩ := inner _ more
  obtain ⟨c', after', rfl, closing', _, last⟩ := behind.exists_mark closing
  exact ⟨o', ts', c', after', rfl, opening', closing', last, inner'⟩

/-- A phrase that is another one between two marks. -/
theorem Phrase.Survives.between (inner : p.Survives ts (c :: after)) (opening : o.is m = true)
    (closing : c.is m' = true)
    (around : ∀ {o' c' ts' after'} pre, o'.is m = true → c'.is m' = true →
      SpellsAlike p o'.stop ts' (c' :: after') → SpellsAlike q pre (o' :: (ts' ++ [c'])) after') :
    q.Survives (o :: (ts ++ [c])) after := by
  intro all loose
  rw [List.cons_append, List.append_assoc] at loose
  obtain ⟨o', ts', c', after', rfl, opening', closing', behind, inner'⟩ := inner.enclosed opening closing loose
  exact ⟨o' :: (ts' ++ [c']), after', by simp, behind, fun pre => around pre opening' closing' (inner' o'.stop)⟩

theorem survives_parenthesized (opening : o.is .leftParen = true) (inner : (Phrase.type ty).Survives ts (c :: after))
    (closing : c.is .rightParen = true) : (Phrase.type2 (.parenthesized ty s)).Survives (o :: (ts ++ [c])) after := by
  refine inner.between opening closing fun _ opening' closing' inner' => ?_
  obtain ⟨ty', hty, spelled⟩ := inner'
  exact ⟨_, by simp only [Type2.erase, hty], .parenthesized opening' spelled closing'⟩

theorem survives_map (opening : o.is .leftBrace = true) (inner : (Phrase.group g).Survives ts (c :: after))
    (closing : c.is .rightBrace = true) : (Phrase.type2 (.map g s)).Survives (o :: (ts ++ [c])) after := by
  refine inner.between opening closing fun _ opening' closing' inner' => ?_
  obtain ⟨g', hg, spelled⟩ := inner'
  exact ⟨_, by simp only [Type2.erase, hg], .map opening' spelled closing'⟩

theorem survives_array (opening : o.is .leftBracket = true) (inner : (Phrase.group g).Survives ts (c :: after))
    (closing : c.is .rightBracket = true) : (Phrase.type2 (.array g s)).Survives (o :: (ts ++ [c])) after := by
  refine inner.between opening closing fun _ opening' closing' inner' => ?_
  obtain ⟨g', hg, spelled⟩ := inner'
  exact ⟨_, by simp only [Type2.erase, hg], .array opening' spelled closing'⟩

theorem survives_unwrap (opening : o.is .tilde = true) (name : t.is .name = true)
    (inner : (Phrase.args args).Survives ts after) :
    (Phrase.type2 (.unwrap (identifier t) args s)).Survives (o :: t :: ts) after := by
  intro all loose
  obtain ⟨o', rest', rfl, opening', _, loose⟩ := Loosened.exists_mark loose opening
  obtain ⟨t', rest', rfl, name', kept, more⟩ := Loosened.exists_mark loose name
  obtain ⟨ts', after', rfl, behind, inner'⟩ := inner _ more
  refine ⟨o' :: t' :: ts', after', rfl, behind, fun _ => ?_⟩
  obtain ⟨args', hargs, spelled⟩ := inner' t'.stop
  exact ⟨_, by simp only [Type2.erase, erase_identifier kept.text, hargs], .unwrap opening' name' spelled⟩

theorem survives_choiceFromInlineGroup (mark : u.is .ampersand = true) (opening : o.is .leftParen = true)
    (inner : (Phrase.group g).Survives ts (c :: after)) (closing : c.is .rightParen = true) :
    (Phrase.type2 (.choiceFromInlineGroup g s)).Survives (u :: o :: (ts ++ [c])) after := by
  intro all loose
  rw [List.cons_append, List.cons_append, List.append_assoc] at loose
  obtain ⟨u', rest', rfl, mark', _, loose⟩ := loose.exists_mark mark
  obtain ⟨o', ts', c', after', rfl, opening', closing', behind, inner'⟩ := inner.enclosed opening closing loose
  refine ⟨u' :: o' :: (ts' ++ [c']), after', by simp, behind, fun _ => ?_⟩
  obtain ⟨g', hg, spelled⟩ := inner' o'.stop
  exact ⟨_, by simp only [Type2.erase, hg], .choiceFromInlineGroup mark' opening' spelled closing'⟩

theorem survives_choiceFromGroup (mark : u.is .ampersand = true) (name : t.is .name = true)
    (inner : (Phrase.args args).Survives ts after) :
    (Phrase.type2 (.choiceFromGroup (identifier t) args s)).Survives (u :: t :: ts) after := by
  intro all loose
  obtain ⟨u', rest', rfl, mark', _, loose⟩ := Loosened.exists_mark loose mark
  obtain ⟨t', rest', rfl, name', kept, more⟩ := Loosened.exists_mark loose name
  obtain ⟨ts', after', rfl, behind, inner'⟩ := inner _ more
  refine ⟨u' :: t' :: ts', after', rfl, behind, fun _ => ?_⟩
  obtain ⟨args', hargs, spelled⟩ := inner' t'.stop
  exact ⟨_, by simp only [Type2.erase, erase_identifier kept.text, hargs], .choiceFromGroup mark' name' spelled⟩

theorem survives_tagged {number : Option Nat} (body : u.body = .tag 6 number) (opening : o.is .leftParen = true)
    (inner : (Phrase.type ty).Survives ts (c :: after)) (closing : c.is .rightParen = true) :
    (Phrase.type2 (.tagged (number.map Int.ofNat) ty s)).Survives (u :: o :: (ts ++ [c])) after := by
  intro all loose
  rw [List.cons_append, List.cons_append, List.append_assoc] at loose
  obtain ⟨u', rest', rfl, body', _, loose⟩ := loose.exists_tag body
  obtain ⟨o', ts', c', after', rfl, opening', closing', behind, inner'⟩ := inner.enclosed opening closing loose
  refine ⟨u' :: o' :: (ts' ++ [c']), after', by simp, behind, fun _ => ?_⟩
  obtain ⟨ty', hty, spelled⟩ := inner' o'.stop
  exact ⟨_, by simp only [Type2.erase, hty], .tagged body' opening' spelled closing'⟩

theorem survives_major {major : Nat} {number : Option Nat} (body : t.body = .tag major number) (bound : major ≤ 7)
    (free : major = 6 → nextIs .leftParen after = false) :
    (Phrase.type2 (.major major (number.map Int.ofNat) s)).Survives [t] after := by
  intro all loose
  obtain ⟨t', after', rfl, body', _, more⟩ := loose.exists_tag body
  refine ⟨[t'], after', rfl, more, fun _ => ⟨_, ?_, .major body' bound fun six => ?_⟩⟩
  · rfl
  · exact more.respelled.not_next (by decide) (free six)

theorem survives_any (mark : t.is .hash = true) : (Phrase.type2 (.any s)).Survives [t] after := by
  intro all loose
  obtain ⟨t', after', rfl, mark', _, more⟩ := loose.exists_mark mark
  refine ⟨[t'], after', rfl, more, fun _ => ⟨_, ?_, .any mark'⟩⟩
  rfl

/-! ## Types -/

theorem survives_noOperator (free : nextIsOperator after = false) : (Phrase.operator none).Survives [] after :=
  fun all loose => ⟨[], all, rfl, loose, fun _ => ⟨none, rfl, .noOperator (loose.respelled.not_nextIsOperator free)⟩⟩

theorem survives_someOperator (mark : operatorSymbol? t = some symbol) (inner : (Phrase.type2 x).Survives ts after) :
    (Phrase.operator (some ⟨symbol, x, s⟩)).Survives (t :: ts) after := by
  intro all loose
  have single (lower upper : Literal) (inclusive : Bool) : t.body ≠ .range lower upper inclusive := by
    rcases is_of_operatorSymbol? mark with is | is
    · exact not_range_of_is is
    · exact not_range_of_is is
  obtain ⟨t', rest', rfl, kept, more⟩ := Loosened.exists_kept loose single
  obtain ⟨ts', after', rfl, behind, inner'⟩ := inner _ more
  refine ⟨t' :: ts', after', rfl, behind, fun _ => ?_⟩
  obtain ⟨x', hx, spelled⟩ := inner' t'.stop
  refine ⟨_, ?_, .someOperator ((operatorSymbol?_congr kept.body kept.text).trans mark) spelled⟩
  simp only [eraseOperator, Operator.erase, hx]

/-- A range in one token may have become one in three. -/
theorem survives_range {lower upper : Literal} {inclusive : Bool} {stop : Location}
    (body : t.body = .range lower upper inclusive) :
    (Phrase.type1 (rangeType1 t lower upper inclusive stop)).Survives [t] after := by
  intro all loose
  cases loose with
  | same kept more =>
    refine ⟨[_], _, rfl, more, fun _ => ⟨_, ?_, .range (kept.body.trans body)⟩⟩
    rfl
  | @range _ a b c lower' upper' inclusive' _ ts' body' first operator last more =>
    rw [body] at body'
    cases body'
    refine ⟨[a, b, c], ts', rfl, more, fun pre => ?_⟩
    have operand : Spells (.type2 _) pre [a] ([b, c] ++ ts') := .literal first
    refine ⟨_, ?_, operand.operands (.someOperator operator (.literal last))⟩
    rfl

theorem survives_operands (operand : (Phrase.type2 x).Survives ts (us ++ after))
    (operator : (Phrase.operator op).Survives us after) : (Phrase.type1 ⟨x, op, s⟩).Survives (ts ++ us) after := by
  intro all loose
  rw [List.append_assoc] at loose
  obtain ⟨ts', rest', rfl, more, operand'⟩ := operand _ loose
  obtain ⟨us', after', rfl, behind, operator'⟩ := operator _ more
  refine ⟨ts' ++ us', after', by simp, behind, fun pre => ?_⟩
  obtain ⟨x', hx, first⟩ := operand' pre
  obtain ⟨op', hop, second⟩ := operator' (stopAfter pre ts')
  exact ⟨_, by simp only [Type1.erase, hx, hop], .operands first second⟩

theorem survives_noChoices (free : nextIs .typeChoice after = false) : (Phrase.choices []).Survives [] after :=
  fun all loose => ⟨[], all, rfl, loose, fun _ => ⟨[], rfl, .noChoices (loose.respelled.not_next (by decide) free)⟩⟩

theorem survives_moreChoices (mark : t.is .typeChoice = true) (first : (Phrase.type1 t₁).Survives ts (us ++ after))
    (more : (Phrase.choices cs).Survives us after) :
    (Phrase.choices (typeChoice t₁ :: cs)).Survives (t :: (ts ++ us)) after := by
  intro all loose
  rw [List.cons_append, List.append_assoc] at loose
  obtain ⟨t', rest', rfl, mark', _, loose⟩ := loose.exists_mark mark
  obtain ⟨ts', rest', rfl, loose, first'⟩ := first _ loose
  obtain ⟨us', after', rfl, behind, more'⟩ := more _ loose
  refine ⟨t' :: (ts' ++ us'), after', by simp, behind, fun _ => ?_⟩
  obtain ⟨t₁', ht, type1⟩ := first' t'.stop
  obtain ⟨cs', hcs, choices⟩ := more' (stopAfter t'.stop ts')
  exact ⟨_, by simp only [eraseTypeChoices, TypeChoice.erase, typeChoice, ht, hcs], .moreChoices mark' type1 choices⟩

theorem survives_type (first : (Phrase.type1 t₁).Survives ts (us ++ after))
    (more : (Phrase.choices cs).Survives us after) :
    (Phrase.type ⟨typeChoice t₁ :: cs, s⟩).Survives (ts ++ us) after := by
  intro all loose
  rw [List.append_assoc] at loose
  obtain ⟨ts', rest', rfl, loose, first'⟩ := first _ loose
  obtain ⟨us', after', rfl, behind, more'⟩ := more _ loose
  refine ⟨ts' ++ us', after', by simp, behind, fun pre => ?_⟩
  obtain ⟨t₁', ht, type1⟩ := first' pre
  obtain ⟨cs', hcs, choices⟩ := more' (stopAfter pre ts')
  exact ⟨_, by simp only [TypeExpr.erase, eraseTypeChoices, TypeChoice.erase, typeChoice, ht, hcs], .type type1 choices⟩

/-! ## Arguments -/

theorem survives_noArgs (free : nextIs .leftAngle after = false) : (Phrase.args none).Survives [] after :=
  fun all loose => ⟨[], all, rfl, loose, fun _ => ⟨none, rfl, .noArgs (loose.respelled.not_next (by decide) free)⟩⟩

theorem survives_noMoreArgs (free : nextIs .comma after = false) : (Phrase.moreArgs []).Survives [] after :=
  fun all loose => ⟨[], all, rfl, loose, fun _ => ⟨[], rfl, .noMoreArgs (loose.respelled.not_next (by decide) free)⟩⟩

theorem survives_moreArgs {s' : Option Span} (mark : t.is .comma = true)
    (first : (Phrase.type1 t₁).Survives ts (us ++ after)) (more : (Phrase.moreArgs as).Survives us after) :
    (Phrase.moreArgs (⟨t₁, s'⟩ :: as)).Survives (t :: (ts ++ us)) after := by
  intro all loose
  rw [List.cons_append, List.append_assoc] at loose
  obtain ⟨t', rest', rfl, mark', _, loose⟩ := loose.exists_mark mark
  obtain ⟨ts', rest', rfl, loose, first'⟩ := first _ loose
  obtain ⟨us', after', rfl, behind, more'⟩ := more _ loose
  refine ⟨t' :: (ts' ++ us'), after', by simp, behind, fun _ => ?_⟩
  obtain ⟨t₁', ht, type1⟩ := first' t'.stop
  obtain ⟨as', has, args⟩ := more' (stopAfter t'.stop ts')
  exact ⟨_, by simp only [eraseGenericArgs, GenericArg.erase, ht, has], .moreArgs mark' type1 args⟩

theorem survives_someArgs {s' : Option Span} (opening : o.is .leftAngle = true)
    (first : (Phrase.type1 t₁).Survives ts (us ++ c :: after)) (more : (Phrase.moreArgs as).Survives us (c :: after))
    (closing : c.is .rightAngle = true) :
    (Phrase.args (some ⟨⟨t₁, s'⟩ :: as, s⟩)).Survives (o :: (ts ++ us ++ [c])) after := by
  intro all loose
  have split : o :: (ts ++ us ++ [c]) ++ after = o :: (ts ++ (us ++ c :: after)) := by simp
  rw [split] at loose
  obtain ⟨o', rest', rfl, opening', _, loose⟩ := loose.exists_mark opening
  obtain ⟨ts', rest', rfl, loose, first'⟩ := first _ loose
  obtain ⟨us', rest', rfl, loose, more'⟩ := more _ loose
  obtain ⟨c', after', rfl, closing', _, behind⟩ := loose.exists_mark closing
  refine ⟨o' :: (ts' ++ us' ++ [c']), after', by simp, behind, fun _ => ?_⟩
  obtain ⟨t₁', ht, type1⟩ := first' o'.stop
  obtain ⟨as', has, args⟩ := more' (stopAfter o'.stop ts')
  exact ⟨_, by simp only [eraseArgs, GenericArgs.erase, eraseGenericArgs, GenericArg.erase, ht, has],
    .someArgs opening' type1 args closing'⟩

end Cddl
