import Cddl.Proofs.Phrase.Rule
/-!
# Tokens that say the same

`Respelled ts ts'` says that the tokens `ts'` come about when what `ts` spell is written anew: a range in one token
becomes one in three, and what the tree does not keep is gone, which is a comma at the end of a key in parentheses and a
cut behind it.  The grammar sees no difference wherever it looks ahead.
-/
namespace Cddl

open Production

/-! ## What a token and its successor show -/

section

variable {t t' u : Token} {ts : List Token} {m : Mark}

theorem Token.is_congr (h : t'.body = t.body) (m : Mark) : t'.is m = t.is m := by
  unfold Token.is
  rw [h]

theorem Token.isUint_congr (h : t'.body = t.body) : t'.isUint = t.isUint := by
  unfold Token.isUint
  rw [h]

theorem isValue_congr (h : t'.body = t.body) : isValue t' = isValue t := by
  unfold isValue
  rw [h]

theorem Token.not_is_any_of_body {b : Token.Body} (h : t.body = b) (hb : ∀ m, b ≠ .mark m) (m : Mark) :
    t.is m = false :=
  Token.not_is_of_body h (hb m)

theorem nextEndsChoice_iff : nextEndsChoice ts = true ↔ nextIs .rightParen ts = true ∨ nextIs .rightBrace ts = true ∨
    nextIs .rightBracket ts = true ∨ nextIs .groupChoice ts = true ∨ nextIs .endOfInput ts = true := by
  cases ts with
  | nil => simp [nextEndsChoice, nextIs]
  | cons t ts => simp [nextEndsChoice, nextIs, endsChoice, or_assoc]

theorem nextIsOperator_iff :
    nextIsOperator ts = false ↔ nextIs .rangeOperator ts = false ∧ nextIs .control ts = false := by
  cases ts with
  | nil => simp [nextIsOperator, nextIs]
  | cons t ts =>
    simp only [nextIsOperator, nextIs, List.head?_cons, Option.any_some, operatorSymbol?]
    cases t.is .rangeOperator <;> cases t.is .control <;> simp

theorem startsOccurrence_congr (h : t'.body = t.body) : startsOccurrence t' = startsOccurrence t := by
  unfold startsOccurrence
  rw [Token.is_congr h, Token.is_congr h, Token.is_congr h]

theorem beginsOccurrence_cons :
    beginsOccurrence (t :: ts) = (startsOccurrence t || (t.isUint && nextIs .asterisk ts)) := rfl

theorem not_beginsOccurrence_of_is (h : t.is m = true) (hm : m ≠ .optional ∧ m ≠ .asterisk ∧ m ≠ .plus) :
    beginsOccurrence (t :: ts) = false := by
  have value : t.isUint = false := by rw [Token.isUint, Token.is_iff.1 h]
  rw [beginsOccurrence_cons, startsOccurrence, Token.not_is h hm.1, Token.not_is h hm.2.1, Token.not_is h hm.2.2, value]
  rfl

theorem beginsGroupEntry_cons_cons : beginsGroupEntry (t :: u :: ts) =
    (startsOccurrence t || (isValue t && u.is .asterisk) || u.is .colon || u.is .arrow || u.is .cut) := rfl

/-- Behind a token that is none of four marks, only an occurrence makes an entry. -/
theorem beginsGroupEntry_of_not_is
    (h : u.is .asterisk = false ∧ u.is .colon = false ∧ u.is .arrow = false ∧ u.is .cut = false) :
    beginsGroupEntry (t :: u :: ts) = startsOccurrence t := by
  rw [beginsGroupEntry_cons_cons, h.1, h.2.1, h.2.2.1, h.2.2.2, Bool.and_false, Bool.or_false, Bool.or_false,
    Bool.or_false, Bool.or_false]

end

/-! ## The relation -/

inductive Respelled : List Token → List Token → Prop
  | nil : Respelled [] []
  | same {t t' : Token} {ts ts' : List Token} (body : t'.body = t.body) (more : Respelled ts ts') :
      Respelled (t :: ts) (t' :: ts')
  | range {t a b c : Token} {lower upper : Literal} {inclusive : Bool} {ts ts' : List Token}
      (body : t.body = .range lower upper inclusive) (first : a.body = .value lower)
      (operator : b.is .rangeOperator = true)
      (last : c.body = .value upper) (more : Respelled ts ts') : Respelled (t :: ts) (a :: b :: c :: ts')
  | comma {c t' : Token} {ts ts' : List Token} (comma : c.is .comma = true) (closing : t'.is .rightParen = true)
      (more : Respelled ts (t' :: ts')) : Respelled (c :: ts) (t' :: ts')
  | cut {c t' : Token} {ts ts' : List Token} (cut : c.is .cut = true) (arrow : t'.is .arrow = true)
      (more : Respelled ts (t' :: ts')) : Respelled (c :: ts) (t' :: ts')

namespace Respelled

variable {t : Token} {ts ts' us us' : List Token} {m : Mark} {s : Text} {l : Location}

theorem mark (h : t.is m = true) (more : Respelled ts ts') : Respelled (t :: ts) (⟨.mark m, s, l⟩ :: ts') :=
  .same (Token.is_iff.1 h).symm more

theorem append (h : Respelled ts ts') (h' : Respelled us us') : Respelled (ts ++ us) (ts' ++ us') := by
  induction h with
  | nil => exact h'
  | same body _ ih => exact .same body ih
  | range body first operator last _ ih => exact .range body first operator last ih
  | comma comma closing _ ih => exact .comma comma closing ih
  | cut cut arrow _ ih => exact .cut cut arrow ih

theorem ne_nil (h : Respelled ts ts') (hts : ts ≠ []) : ts' ≠ [] := by
  cases h with
  | nil => exact absurd rfl hts
  | same | range | comma | cut => exact List.cons_ne_nil _ _

/-! ## Looking ahead -/

/-- A mark that does not come next does not come to be next, unless something in front of it can go. -/
theorem not_next (h : Respelled ts ts') (hm : m ≠ .rightParen ∧ m ≠ .arrow) (free : nextIs m ts = false) :
    nextIs m ts' = false := by
  cases h with
  | nil => exact free
  | same body => exact (Token.is_congr body m).trans free
  | range _ first => exact Token.not_is_of_value first
  | comma _ closing => exact Token.not_is closing (fun h => hm.1 h.symm)
  | cut _ arrow => exact Token.not_is arrow (fun h => hm.2 h.symm)

theorem not_next_arrow (h : Respelled ts ts') (free : nextIs .arrow ts = false) (noCut : nextIs .cut ts = false) :
    nextIs .arrow ts' = false := by
  cases h with
  | nil => exact free
  | same body => exact (Token.is_congr body _).trans free
  | range _ first => exact Token.not_is_of_value first
  | comma _ closing => exact Token.not_is closing (by decide)
  | cut cut => exact absurd (cut.symm.trans noCut) (by decide)

/-- A mark that comes next still does, unless it is one that can go. -/
theorem next (h : Respelled ts ts') (hm : m ≠ .comma ∧ m ≠ .cut) (now : nextIs m ts = true) :
    nextIs m ts' = true := by
  cases h with
  | nil => exact now
  | same body => exact (Token.is_congr body m).trans now
  | range body => exact absurd (now.symm.trans (Token.not_is_of_range body)) (by decide)
  | comma comma => exact absurd (now.symm.trans (Token.not_is comma (fun h => hm.1 h.symm))) (by decide)
  | cut cut => exact absurd (now.symm.trans (Token.not_is cut (fun h => hm.2 h.symm))) (by decide)

theorem not_nextIsKeyEnd (h : Respelled ts ts') (free : nextIsKeyEnd ts = false) : nextIsKeyEnd ts' = false := by
  simp only [nextIsKeyEnd, Bool.or_eq_false_iff] at free ⊢
  obtain ⟨⟨colon, arrow⟩, cut⟩ := free
  exact ⟨⟨h.not_next (by decide) colon, h.not_next_arrow arrow cut⟩, h.not_next (by decide) cut⟩

theorem endsChoice (h : Respelled ts ts') (ends : nextEndsChoice ts = true) : nextEndsChoice ts' = true := by
  rw [nextEndsChoice_iff] at ends ⊢
  rcases ends with now | now | now | now | now
  · exact .inl (h.next (by decide) now)
  · exact .inr (.inl (h.next (by decide) now))
  · exact .inr (.inr (.inl (h.next (by decide) now)))
  · exact .inr (.inr (.inr (.inl (h.next (by decide) now))))
  · exact .inr (.inr (.inr (.inr (h.next (by decide) now))))

theorem not_nextIsOperator (h : Respelled ts ts') (free : nextIsOperator ts = false) : nextIsOperator ts' = false := by
  rw [nextIsOperator_iff] at free ⊢
  exact ⟨h.not_next (by decide) free.1, h.not_next (by decide) free.2⟩

theorem not_beginsOccurrence (h : Respelled ts ts') (free : beginsOccurrence ts = false) :
    beginsOccurrence ts' = false := by
  cases h with
  | nil => exact free
  | same body more =>
    rw [beginsOccurrence_cons, Bool.or_eq_false_iff, Bool.and_eq_false_iff] at free ⊢
    rw [startsOccurrence_congr body, Token.isUint_congr body]
    exact ⟨free.1, free.2.imp_right (more.not_next (by decide))⟩
  | @range _ a b c _ _ _ _ ts' _ first operator =>
    have star : nextIs .asterisk (b :: c :: ts') = false := Token.not_is operator (by decide)
    have mark (m : Mark) : a.is m = false := Token.not_is_of_value first
    rw [beginsOccurrence_cons, startsOccurrence, mark, mark, mark, star, Bool.and_false]
    rfl
  | comma _ closing => exact not_beginsOccurrence_of_is closing (by decide)
  | cut _ arrow => exact not_beginsOccurrence_of_is arrow (by decide)

/-! ## The bodies of rules -/

/-- A body that is read as an entry still is, and one that is not still is not, unless it begins with a range. -/
theorem beginsGroupEntry_eq (h : Respelled ts ts') (opens : nextOpensPhrase ts = true)
    (entry : beginsGroupEntry ts = true → ∀ t, ts.head? = some t → ∀ lower upper i, t.body ≠ .range lower upper i) :
    beginsGroupEntry ts' = beginsGroupEntry ts := by
  have closed {t : Token} {m : Mark} (h : t.is m = true) (hm : opensPhrase ⟨.mark m, [], .start⟩ = false)
      (opens : opensPhrase t = true) : False := by
    unfold opensPhrase at opens hm
    rw [Token.is_iff.1 h] at opens
    exact absurd (opens.symm.trans hm) (by decide)
  cases h with
  | nil => rfl
  | same body more =>
    cases more with
    | nil => rfl
    | same body' =>
      rw [beginsGroupEntry_cons_cons, beginsGroupEntry_cons_cons, startsOccurrence_congr body, isValue_congr body]
      simp only [Token.is_congr body']
    | range body' first =>
      have mark := Token.not_is_any_of_body body' (fun _ h => by cases h)
      have mark' := Token.not_is_any_of_body first (fun _ h => by cases h)
      rw [beginsGroupEntry_of_not_is ⟨mark _, mark _, mark _, mark _⟩,
        beginsGroupEntry_of_not_is ⟨mark' _, mark' _, mark' _, mark' _⟩]
      exact startsOccurrence_congr body
    | comma comma closing =>
      have mark {m : Mark} (hm : Mark.comma ≠ m) := Token.not_is comma hm
      have mark' {m : Mark} (hm : Mark.rightParen ≠ m) := Token.not_is closing hm
      rw [beginsGroupEntry_of_not_is ⟨mark (by decide), mark (by decide), mark (by decide), mark (by decide)⟩,
        beginsGroupEntry_of_not_is ⟨mark' (by decide), mark' (by decide), mark' (by decide), mark' (by decide)⟩]
      exact startsOccurrence_congr body
    | cut cut arrow =>
      rw [beginsGroupEntry_cons_cons, beginsGroupEntry_cons_cons, cut, arrow, Bool.or_true, Bool.or_true, Bool.true_or]
  | @range t a b c lower upper i ts ts' body first operator =>
    have old : beginsGroupEntry (t :: ts) = false :=
      Bool.eq_false_iff.2 fun h => entry h t rfl lower upper i body
    have mark := Token.not_is_any_of_body first (fun _ h => by cases h)
    have mark' {m : Mark} (hm : Mark.rangeOperator ≠ m) := Token.not_is operator hm
    rw [old, beginsGroupEntry_of_not_is ⟨mark' (by decide), mark' (by decide), mark' (by decide), mark' (by decide)⟩,
      startsOccurrence, mark, mark, mark]
    rfl
  | comma comma => exact (closed comma (by decide) opens).elim
  | cut cut => exact (closed cut (by decide) opens).elim

end Respelled
end Cddl
