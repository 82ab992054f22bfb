import Cddl.Proofs.Phrase.Respelled
/-!
# The first two tokens of a type

A rule that is defined with an equals sign is taken for an entry by its first two tokens, and a group by its first two
tokens for one that begins with an occurrence.  No type looks so, unless what stands behind its only token makes it
(`Spells.not_beginsGroupEntry`).
-/
namespace Cddl

open Production

variable {pre : Location} {t c : Token} {m : Mark} {ts us after : List Token} {g : Group} {ty : TypeExpr}

/-! ## Two tokens -/

theorem not_startsOccurrence_of_is (h : t.is m = true) (hm : m ≠ .optional ∧ m ≠ .asterisk ∧ m ≠ .plus) :
    startsOccurrence t = false := by
  rw [startsOccurrence, Token.not_is h hm.1, Token.not_is h hm.2.1, Token.not_is h hm.2.2]
  rfl

theorem not_startsOccurrence_of_body {b : Token.Body} (h : t.body = b) (hb : ∀ m, b ≠ .mark m) :
    startsOccurrence t = false := by
  have mark := Token.not_is_any_of_body h hb
  rw [startsOccurrence, mark, mark, mark]
  rfl

theorem not_isValue_of_body {b : Token.Body} (h : t.body = b) (hb : ∀ v, b ≠ .value v) : isValue t = false := by
  unfold isValue
  split
  · exact absurd (h.symm.trans ‹_›) (hb _)
  · rfl

theorem not_isValue_of_is (h : t.is m = true) : isValue t = false :=
  not_isValue_of_body (Token.is_iff.1 h) fun _ h => by cases h

theorem isValue_of_isUint (h : t.isUint = true) : isValue t = true := by
  unfold Token.isUint at h
  unfold isValue
  split at h
  · rename_i body
    rw [body]
  · cases h

theorem nextIsKeyEnd_cons (h : t.is m = true) (hm : m ≠ .colon ∧ m ≠ .arrow ∧ m ≠ .cut) :
    nextIsKeyEnd (t :: ts) = false := by
  simp only [nextIsKeyEnd, nextIs, List.head?_cons, Option.any_some, Token.not_is h hm.1, Token.not_is h hm.2.1,
    Token.not_is h hm.2.2, Bool.or_self]

/-- What begins no entry: a token that begins no occurrence, and behind it what ends no key and is no asterisk. -/
theorem not_beginsGroupEntry_cons (starts : startsOccurrence t = false) (behind : nextIsKeyEnd ts = false)
    (star : isValue t = true → nextIs .asterisk ts = false) : beginsGroupEntry (t :: ts) = false := by
  cases ts with
  | nil => rfl
  | cons u ts =>
    simp only [nextIsKeyEnd, nextIs, List.head?_cons, Option.any_some, Bool.or_eq_false_iff] at behind star
    have joined : (isValue t && u.is .asterisk) = false := by
      cases value : isValue t with
      | false => rfl
      | true => exact star value
    rw [beginsGroupEntry_cons_cons, starts, joined, behind.1.1, behind.1.2, behind.2]
    rfl

/-- What begins no entry begins with no occurrence. -/
theorem not_beginsOccurrence_of_not_beginsGroupEntry (h : beginsGroupEntry (t :: ts) = false) (hts : ts ≠ []) :
    beginsOccurrence (t :: ts) = false := by
  obtain ⟨u, ts, rfl⟩ := List.exists_cons_of_ne_nil hts
  simp only [beginsGroupEntry_cons_cons, Bool.or_eq_false_iff] at h
  rw [beginsOccurrence_cons, h.1.1.1.1, Bool.false_or]
  cases number : t.isUint with
  | false => rfl
  | true =>
    rw [isValue_of_isUint number] at h
    exact h.1.1.1.2

/-! ## What does not stand second -/

/-- What may stand behind a type for it not to look like an entry. -/
structure EndsType (after : List Token) : Prop where
  key : nextIsKeyEnd after = false
  star : nextIs .asterisk after = false

theorem endsType_of_is (h : t.is m = true) (hm : m ∉ [.colon, .arrow, .cut, .asterisk]) : EndsType (t :: after) := by
  simp only [List.mem_cons, List.not_mem_nil, or_false, not_or] at hm
  exact ⟨nextIsKeyEnd_cons h ⟨hm.1, hm.2.1, hm.2.2.1⟩, Token.not_is h hm.2.2.2⟩

theorem Spells.not_nextIsKeyEnd {p : Phrase} (h : Spells p pre ts after) (hp : p.takesToken = true)
    (rest : List Token) : nextIsKeyEnd (ts ++ rest) = false := by
  have taken := h.ne_nil hp
  have colon := h.not_next hp (m := .colon) (by decide)
  have arrow := h.not_next hp (m := .arrow) (by decide)
  have cut := h.not_next hp (m := .cut) (by decide)
  obtain ⟨t, ts, rfl⟩ := List.exists_cons_of_ne_nil taken
  simp only [nextIsKeyEnd, nextIs, List.cons_append, List.head?_cons, Option.any_some] at *
  rw [colon, arrow, cut]
  rfl

theorem nextIsKeyEnd_entries {es : List ListedEntry} (h : Spells (.entries es) pre ts after)
    (free : nextIsKeyEnd after = false) : nextIsKeyEnd (ts ++ after) = false := by
  cases h with
  | noEntries => exact free
  | plainEntry entry =>
    rw [List.append_assoc]
    exact entry.not_nextIsKeyEnd rfl _
  | commaEntry entry =>
    rw [List.append_assoc]
    exact entry.not_nextIsKeyEnd rfl _

theorem nextIsKeyEnd_group (h : Spells (.group g) pre ts after) (free : nextIsKeyEnd after = false) :
    nextIsKeyEnd (ts ++ after) = false := by
  cases h with
  | group first more =>
    cases first with
    | groupChoice entries =>
      rw [List.append_assoc]
      refine nextIsKeyEnd_entries entries ?_
      cases more with
      | noGroupChoices => exact free
      | moreGroupChoices mark => exact nextIsKeyEnd_cons mark (by decide)

theorem endsType_args {args : Option GenericArgs} (h : Spells (.args args) pre ts after) (free : EndsType after) :
    EndsType (ts ++ after) := by
  cases h with
  | noArgs => exact free
  | someArgs opening => exact endsType_of_is opening (by decide)

theorem endsType_operator {op : Option Operator} (h : Spells (.operator op) pre ts after) (free : EndsType after) :
    EndsType (ts ++ after) := by
  cases h with
  | noOperator => exact free
  | someOperator mark =>
    rcases is_of_operatorSymbol? mark with is | is
    · exact endsType_of_is is (by decide)
    · exact endsType_of_is is (by decide)

theorem endsType_choices {cs : List TypeChoice} (h : Spells (.choices cs) pre ts after) (free : EndsType after) :
    EndsType (ts ++ after) := by
  cases h with
  | noChoices => exact free
  | moreChoices mark => exact endsType_of_is mark (by decide)

/-! ## Closing brackets -/

/-- The marks that close a bracket. -/
def closers : List Mark := [.rightParen, .rightBrace, .rightBracket]

theorem endsType_of_closer (closing : c.is m = true) (hm : m ∈ closers) : EndsType (c :: after) :=
  endsType_of_is closing ((by decide : ∀ m ∈ closers, m ∉ [.colon, .arrow, .cut, .asterisk]) m hm)

theorem not_next_of_closer {k : Mark} (closing : c.is m = true) (hm : m ∈ closers) (hk : k ∉ closers) :
    nextIs k (c :: after) = false :=
  Token.not_is closing fun same => hk (same ▸ hm)

theorem nextEndsChoice_of_closer (closing : c.is m = true) (hm : m ∈ closers) : nextEndsChoice (c :: after) = true := by
  rw [nextEndsChoice_iff]
  simp only [closers, List.mem_cons, List.not_mem_nil, or_false] at hm
  rcases hm with rfl | rfl | rfl
  · exact .inl closing
  · exact .inr (.inl closing)
  · exact .inr (.inr (.inl closing))

/-! ## Types -/

theorem not_beginsGroupEntry_mark (h : t.is m = true) (hm : m ≠ .optional ∧ m ≠ .asterisk ∧ m ≠ .plus)
    (behind : nextIsKeyEnd ts = false) : beginsGroupEntry (t :: ts) = false := by
  refine not_beginsGroupEntry_cons (not_startsOccurrence_of_is h hm) behind fun value => ?_
  rw [not_isValue_of_is h] at value
  cases value

theorem not_beginsGroupEntry_body {b : Token.Body} (h : t.body = b) (hb : ∀ m, b ≠ .mark m) (behind : EndsType ts) :
    beginsGroupEntry (t :: ts) = false :=
  not_beginsGroupEntry_cons (not_startsOccurrence_of_body h hb) behind.key fun _ => behind.star

theorem Spells.not_beginsGroupEntry_type2 {x : Type2} (h : Spells (.type2 x) pre ts after) (free : EndsType after) :
    beginsGroupEntry (ts ++ after) = false := by
  cases h with
  | literal body => exact not_beginsGroupEntry_body body (fun _ h => by cases h) free
  | typename name args => exact not_beginsGroupEntry_mark name (by decide) (endsType_args args free).key
  | parenthesized opening type =>
    rw [List.cons_append, List.append_assoc]
    exact not_beginsGroupEntry_mark opening (by decide) (type.not_nextIsKeyEnd rfl _)
  | map opening group closing =>
    rw [List.cons_append, List.append_assoc]
    exact not_beginsGroupEntry_mark opening (by decide)
      (nextIsKeyEnd_group group (nextIsKeyEnd_cons closing (by decide)))
  | array opening group closing =>
    rw [List.cons_append, List.append_assoc]
    exact not_beginsGroupEntry_mark opening (by decide)
      (nextIsKeyEnd_group group (nextIsKeyEnd_cons closing (by decide)))
  | unwrap opening name => exact not_beginsGroupEntry_mark opening (by decide) (nextIsKeyEnd_cons name (by decide))
  | choiceFromInlineGroup mark opening =>
    exact not_beginsGroupEntry_mark mark (by decide) (nextIsKeyEnd_cons opening (by decide))
  | choiceFromGroup mark name => exact not_beginsGroupEntry_mark mark (by decide) (nextIsKeyEnd_cons name (by decide))
  | tagged body opening =>
    exact not_beginsGroupEntry_body body (fun _ h => by cases h) (endsType_of_is opening (by decide))
  | major body => exact not_beginsGroupEntry_body body (fun _ h => by cases h) free
  | any mark => exact not_beginsGroupEntry_mark mark (by decide) free.key

theorem Spells.not_beginsGroupEntry_type1 {x : Type1} (h : Spells (.type1 x) pre ts after) (free : EndsType after) :
    beginsGroupEntry (ts ++ after) = false := by
  cases h with
  | range body => exact not_beginsGroupEntry_body body (fun _ h => by cases h) free
  | operands operand operator =>
    rw [List.append_assoc]
    exact operand.not_beginsGroupEntry_type2 (endsType_operator operator free)

/-- **A type is not taken for an entry** by what it begins with. -/
theorem Spells.not_beginsGroupEntry (h : Spells (.type ty) pre ts after) (free : EndsType after) :
    beginsGroupEntry (ts ++ after) = false := by
  cases h with
  | type first more =>
    rw [List.append_assoc]
    exact first.not_beginsGroupEntry_type1 (endsType_choices more free)

/-- A type does not begin with an occurrence. -/
theorem Spells.not_beginsOccurrence (h : Spells (.type ty) pre ts after) (free : EndsType after)
    (present : after ≠ []) : beginsOccurrence (ts ++ after) = false := by
  have entry := h.not_beginsGroupEntry free
  obtain ⟨t, ts, rfl⟩ := List.exists_cons_of_ne_nil (h.ne_nil rfl)
  exact not_beginsOccurrence_of_not_beginsGroupEntry entry (List.append_ne_nil_of_right_ne_nil _ present)

end Cddl
