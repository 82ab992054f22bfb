import Cddl.Proofs.Phrase.Respelled
/-!
# What stands behind a range

A range in one token is a whole type, so what follows it is what follows a type: never a range operator, which needs an
operand before it, and never a colon, which needs a name or a literal (`Spells.rangesApart`).
-/
namespace Cddl

open Production

variable {pre : Location} {m : Mark} {t c : Token} {ts us after : List Token}

/-- Whether a token is a range without blanks. -/
def Token.isRange (t : Token) : Bool :=
  match t.body with
  | .range .. => true
  | _ => false

/-- Some tokens begin with what may follow a whole type. -/
def FollowsType (after : List Token) : Prop := nextIs .rangeOperator after = false ∧ nextIs .colon after = false

/-- Behind every range among some tokens stands what may follow a whole type. -/
def RangesApart : List Token → List Token → Prop
  | [], _ => True
  | t :: ts, after => (t.isRange = true → FollowsType (ts ++ after)) ∧ RangesApart ts after

theorem Token.isRange_of_body {b : Token.Body} (h : t.body = b) (hb : ∀ lower upper i, b ≠ .range lower upper i) :
    t.isRange = false := by
  unfold Token.isRange
  split
  · exact absurd (h.symm.trans ‹_›) (hb _ _ _)
  · rfl

theorem Token.exists_range (h : t.isRange = true) : ∃ lower upper inclusive, t.body = .range lower upper inclusive := by
  unfold Token.isRange at h
  split at h
  · exact ⟨_, _, _, ‹_›⟩
  · cases h

theorem Token.isRange_of_is (h : t.is m = true) : t.isRange = false :=
  Token.isRange_of_body (Token.is_iff.1 h) fun _ _ _ h => by cases h

theorem Token.isRange_of_value {v : Literal} (h : t.body = .value v) : t.isRange = false :=
  Token.isRange_of_body h fun _ _ _ h => by cases h

theorem Token.isRange_of_tag {major : Nat} {number : Option Nat} (h : t.body = .tag major number) : t.isRange = false :=
  Token.isRange_of_body h fun _ _ _ h => by cases h

@[simp] theorem rangesApart_nil : RangesApart [] after := trivial

theorem rangesApart_cons (h : t.isRange = false) : RangesApart (t :: ts) after ↔ RangesApart ts after := by
  simp [RangesApart, h]

@[simp] theorem rangesApart_append :
    RangesApart (ts ++ us) after ↔ RangesApart ts (us ++ after) ∧ RangesApart us after := by
  induction ts with
  | nil => simp
  | cons t ts ih => simp only [List.cons_append, RangesApart, ih, List.append_assoc, and_assoc]

theorem rangesApart_of_not (h : ∀ t ∈ ts, t.isRange = false) : RangesApart ts after := by
  induction ts with
  | nil => trivial
  | cons t ts ih =>
    rw [rangesApart_cons (h t List.mem_cons_self)]
    exact ih fun u hu => h u (List.mem_cons_of_mem _ hu)

theorem followsType_of_is (h : c.is m = true) (hm : m ≠ .rangeOperator ∧ m ≠ .colon) : FollowsType (c :: after) :=
  ⟨Token.not_is h hm.1, Token.not_is h hm.2⟩

/-! ## What begins behind a type -/

theorem Spells.followsType_choices {cs : List TypeChoice} (h : Spells (.choices cs) pre us after)
    (behind : FollowsType after) : FollowsType (us ++ after) := by
  cases h with
  | noChoices => exact behind
  | moreChoices mark => exact followsType_of_is mark (by decide)

theorem Spells.followsType_moreArgs {as : List GenericArg} (h : Spells (.moreArgs as) pre us after)
    (behind : FollowsType after) : FollowsType (us ++ after) := by
  cases h with
  | noMoreArgs => exact behind
  | moreArgs mark => exact followsType_of_is mark (by decide)

theorem Spells.followsType_groupChoices {cs : List GroupChoice} (h : Spells (.groupChoices cs) pre us after)
    (behind : FollowsType after) : FollowsType (us ++ after) := by
  cases h with
  | noGroupChoices => exact behind
  | moreGroupChoices mark => exact followsType_of_is mark (by decide)

theorem SpellsArrow.followsType {cut : Bool} (h : SpellsArrow cut us) : FollowsType (us ++ after) := by
  cases h with
  | plain arrow => exact followsType_of_is arrow (by decide)
  | cut mark => exact followsType_of_is mark (by decide)

/-- A phrase that takes a token in any case begins with what may follow a type. -/
theorem Spells.followsType_of_takesToken {p : Phrase} (h : Spells p pre ts after) (hp : p.takesToken = true)
    (rest : List Token) : FollowsType (ts ++ rest) := by
  have operator := h.not_next hp (m := .rangeOperator) (by decide)
  have colon := h.not_next hp (m := .colon) (by decide)
  obtain ⟨t, ts, rfl⟩ := List.exists_cons_of_ne_nil (h.ne_nil hp)
  exact ⟨operator, colon⟩

theorem Spells.followsType_entries {es : List ListedEntry} (h : Spells (.entries es) pre us after)
    (behind : FollowsType after) : FollowsType (us ++ after) := by
  cases h with
  | noEntries => exact behind
  | plainEntry entry =>
    rw [List.append_assoc]
    exact entry.followsType_of_takesToken rfl _
  | commaEntry entry =>
    rw [List.append_assoc]
    exact entry.followsType_of_takesToken rfl _

/-! ## Phrases -/

/-- Whether the last token of a phrase may be a range. -/
def Phrase.mayEndInRange : Phrase → Bool
  | .type2 _ | .operator _ | .args _ => false
  | .type1 t => t.operator.isSome
  | _ => true

theorem SpellsOccurrence.rangesApart {oc : Option Occurrence} {rest : List Token} (h : SpellsOccurrence oc ts rest) :
    RangesApart ts after := by
  have mark {t : Token} {m : Mark} (h : t.is m = true) := Token.isRange_of_is h
  have value {t : Token} {v : Literal} (h : t.body = .value v) := Token.isRange_of_value h
  apply rangesApart_of_not
  cases h with
  | none => simp
  | optional is | oneOrMore is | zeroOrMore is => simp [mark is]
  | upTo is upper => simp [mark is, value (body_of_uintAt? upper).1]
  | atLeast lower is => simp [value lower, mark is]
  | fromTo lower is upper => simp [value lower, mark is, value (body_of_uintAt? upper).1]

theorem SpellsArrow.rangesApart {cut : Bool} (h : SpellsArrow cut ts) : RangesApart ts after := by
  apply rangesApart_of_not
  cases h with
  | plain arrow => simp [Token.isRange_of_is arrow]
  | cut mark arrow => simp [Token.isRange_of_is mark, Token.isRange_of_is arrow]

theorem operator_of_colonKey? {t₁ : Type1} {key : MemberKey} (h : colonKey? t₁ = some key) : t₁.operator = none := by
  unfold colonKey? at h
  split at h
  · assumption
  · assumption
  · cases h

/-- What stands between two marks. -/
theorem RangesApart.enclosed {o : Token} {m m' : Mark} (opening : o.is m = true) (inner : RangesApart ts (c :: after))
    (closing : c.is m' = true) : RangesApart (o :: (ts ++ [c])) after := by
  rw [rangesApart_cons (Token.isRange_of_is opening), rangesApart_append,
    rangesApart_cons (Token.isRange_of_is closing)]
  exact ⟨inner, rangesApart_nil⟩

/-- **A range in a phrase is followed by what may follow a type, if that goes for the phrase too.** -/
theorem Spells.rangesApart {p : Phrase} (h : Spells p pre ts after) : (p.mayEndInRange = true → FollowsType after) →
    RangesApart ts after := by
  have is {t : Token} {m : Mark} (h : t.is m = true) := Token.isRange_of_is h
  induction h with
  | literal body => exact fun _ => rangesApart_of_not (by simp [Token.isRange_of_value body])
  | typename name _ ih => exact fun _ => (rangesApart_cons (is name)).2 (ih fun h => by cases h)
  | parenthesized opening _ closing ih =>
    exact fun _ => .enclosed opening (ih fun _ => followsType_of_is closing (by decide)) closing
  | map opening _ closing ih =>
    exact fun _ => .enclosed opening (ih fun _ => followsType_of_is closing (by decide)) closing
  | array opening _ closing ih =>
    exact fun _ => .enclosed opening (ih fun _ => followsType_of_is closing (by decide)) closing
  | unwrap opening name _ ih =>
    intro _
    rw [rangesApart_cons (is opening), rangesApart_cons (is name)]
    exact ih fun h => by cases h
  | choiceFromInlineGroup mark opening _ closing ih =>
    intro _
    rw [rangesApart_cons (is mark)]
    exact .enclosed opening (ih fun _ => followsType_of_is closing (by decide)) closing
  | choiceFromGroup mark name _ ih =>
    intro _
    rw [rangesApart_cons (is mark), rangesApart_cons (is name)]
    exact ih fun h => by cases h
  | tagged body opening _ closing ih =>
    intro _
    rw [rangesApart_cons (Token.isRange_of_tag body)]
    exact .enclosed opening (ih fun _ => followsType_of_is closing (by decide)) closing
  | major body => exact fun _ => rangesApart_of_not (by simp [Token.isRange_of_tag body])
  | any mark => exact fun _ => rangesApart_of_not (by simp [is mark])
  | noOperator => exact fun _ => rangesApart_nil
  | someOperator mark _ ih =>
    intro _
    have single := (is_of_operatorSymbol? mark).elim is is
    exact (rangesApart_cons single).2 (ih fun h => by cases h)
  | range body => exact fun behind => ⟨fun _ => behind rfl, rangesApart_nil⟩
  | operands _ _ ih ih' =>
    intro _
    rw [rangesApart_append]
    exact ⟨ih (fun h => by cases h), ih' (fun h => by cases h)⟩
  | noChoices => exact fun _ => rangesApart_nil
  | moreChoices mark _ more ih ih' =>
    intro behind
    rw [rangesApart_cons (is mark), rangesApart_append]
    exact ⟨ih fun _ => more.followsType_choices (behind rfl), ih' behind⟩
  | type _ more ih ih' =>
    exact fun behind => rangesApart_append.2 ⟨ih fun _ => more.followsType_choices (behind rfl), ih' behind⟩
  | noArgs => exact fun _ => rangesApart_nil
  | @someArgs _ o c t as ts us after opening _ more closing ih ih' =>
    intro _
    have closed : FollowsType (c :: after) := followsType_of_is closing (by decide)
    refine .enclosed opening (rangesApart_append.2 ⟨?_, ih' fun _ => closed⟩) closing
    exact ih fun _ => more.followsType_moreArgs closed
  | noMoreArgs => exact fun _ => rangesApart_nil
  | moreArgs mark _ more ih ih' =>
    intro behind
    rw [rangesApart_cons (is mark), rangesApart_append]
    exact ⟨ih fun _ => more.followsType_moreArgs (behind rfl), ih' behind⟩
  | inlineEntry occurrence opening _ closing _ ih =>
    intro _
    have inner := ih fun _ => followsType_of_is closing (by decide)
    exact rangesApart_append.2 ⟨occurrence.rangesApart, .enclosed opening inner closing⟩
  | enclosedEntry occurrence opening _ closing arrow _ ih ih' =>
    intro behind
    have inner := ih fun _ => followsType_of_is closing (by decide)
    rw [rangesApart_append, rangesApart_cons (is opening), rangesApart_append, rangesApart_cons (is closing),
      rangesApart_append]
    exact ⟨occurrence.rangesApart, by simpa using inner, arrow.rangesApart, ih' behind⟩
  | colonEntry occurrence _ _ mark made _ ih ih' =>
    intro behind
    have named : RangesApart _ _ := ih fun h => by
      rw [Phrase.mayEndInRange, operator_of_colonKey? made] at h
      cases h
    rw [rangesApart_append, rangesApart_append, rangesApart_cons (is mark)]
    exact ⟨occurrence.rangesApart, by simpa using named, ih' behind⟩
  | arrowEntry occurrence _ _ arrow _ ih ih' =>
    intro behind
    have first := ih fun _ => arrow.followsType
    rw [rangesApart_append, rangesApart_append, rangesApart_append]
    exact ⟨occurrence.rangesApart, by simpa using first, arrow.rangesApart, ih' behind⟩
  | namedEntry occurrence _ _ _ ih =>
    exact fun _ => rangesApart_append.2 ⟨occurrence.rangesApart, ih fun h => by cases h⟩
  | keylessEntry occurrence _ _ _ _ more ih ih' =>
    intro behind
    rw [rangesApart_append, rangesApart_append]
    exact ⟨occurrence.rangesApart, ih fun _ => more.followsType_choices (behind rfl), ih' behind⟩
  | noEntries => exact fun _ => rangesApart_nil
  | plainEntry _ _ more ih ih' =>
    exact fun behind => rangesApart_append.2 ⟨ih fun _ => more.followsType_entries (behind rfl), ih' behind⟩
  | commaEntry _ mark _ ih ih' =>
    intro behind
    rw [rangesApart_append, rangesApart_cons (is mark)]
    exact ⟨ih fun _ => followsType_of_is mark (by decide), ih' behind⟩
  | groupChoice _ ih => exact ih
  | noGroupChoices => exact fun _ => rangesApart_nil
  | moreGroupChoices mark _ more ih ih' =>
    intro behind
    rw [rangesApart_cons (is mark), rangesApart_append]
    exact ⟨ih fun _ => more.followsType_groupChoices (behind rfl), ih' behind⟩
  | group _ more ih ih' =>
    exact fun behind => rangesApart_append.2 ⟨ih fun _ => more.followsType_groupChoices (behind rfl), ih' behind⟩

/-! ## Rules -/

theorem SpellsMoreParams.rangesApart {ps : List GenericParam} {rest : List Token} (h : SpellsMoreParams ps ts rest) :
    RangesApart ts after := by
  induction h with
  | nil => exact rangesApart_nil
  | cons mark name _ ih =>
    rw [rangesApart_cons (Token.isRange_of_is mark), rangesApart_cons (Token.isRange_of_is name)]
    exact ih

theorem SpellsParams.rangesApart {params : Option GenericParams} {rest : List Token} (h : SpellsParams params ts rest) :
    RangesApart ts after := by
  cases h with
  | none => exact rangesApart_nil
  | some opening name more closing =>
    rw [rangesApart_cons (Token.isRange_of_is opening), rangesApart_cons (Token.isRange_of_is name), rangesApart_append,
      rangesApart_cons (Token.isRange_of_is closing)]
    exact ⟨more.rangesApart, rangesApart_nil⟩

theorem SpellsRule.rangesApart {r : Rule} (h : SpellsRule r ts after) (behind : FollowsType after) :
    RangesApart ts after := by
  cases h with
  | type isName params assigned _ _ type =>
    rw [rangesApart_cons (Token.isRange_of_is isName), rangesApart_append,
      rangesApart_cons (Token.isRange_of_is (is_mark_of_assignment? assigned))]
    exact ⟨params.rangesApart, type.rangesApart fun _ => behind⟩
  | group isName params assigned _ _ entry =>
    rw [rangesApart_cons (Token.isRange_of_is isName), rangesApart_append,
      rangesApart_cons (Token.isRange_of_is (is_mark_of_assignment? assigned))]
    exact ⟨params.rangesApart, entry.rangesApart fun _ => behind⟩

theorem SpellsRules.followsType {rs : List Rule} (h : SpellsRules rs us after) (behind : FollowsType after) :
    FollowsType (us ++ after) := by
  cases h with
  | nil => exact behind
  | cons first =>
    cases first with
    | type isName => exact followsType_of_is isName (by decide)
    | group isName => exact followsType_of_is isName (by decide)

theorem SpellsRules.rangesApart {rs : List Rule} (h : SpellsRules rs ts after) (behind : FollowsType after) :
    RangesApart ts after := by
  induction h with
  | nil => exact rangesApart_nil
  | cons first more ih => exact rangesApart_append.2 ⟨first.rangesApart (more.followsType behind), ih behind⟩

end Cddl
