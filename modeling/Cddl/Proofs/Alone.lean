import Cddl.Proofs.Loosened.Moved
import Cddl.Proofs.Loosened.Rule
import Cddl.Proofs.Motion.Rule
import Cddl.Proofs.Phrase.Balanced
import Cddl.Proofs.Phrase.Tokens
import Cddl.Proofs.Shape
/-!
# Types that stand alone

Behind a key a type is read as a type, and alone between brackets as an entry, which tries a parenthesis first and takes
a lone name for that of a group.
-/
namespace Cddl

open Production

variable {pre : Location} {m : Mark} {t c o name eq k : Token} {ts us after : List Token} {ty : TypeExpr}
  {e : GroupEntry} {x : Type2} {op : Option Operator} {cs : List TypeChoice} {s s' s'' : Option Span}

/-! ## The entry that a type makes -/

/-- A group with one entry. -/
def Group.of (e : GroupEntry) : Group := ⟨[⟨[⟨e, false⟩], none⟩], none⟩

/-- The entry that a type is read as between brackets, where it is read: a name is taken for that of a group, and a type
in parentheses for a group of its own, which then has to end with the parenthesis. -/
def TypeExpr.entry? : TypeExpr → Option GroupEntry
  | ⟨[⟨⟨.parenthesized type _, none, _⟩, _⟩], _⟩ => type.entry?.map fun e => .inline none (.of e) none
  | ⟨[⟨⟨.typename name args _, none, _⟩, _⟩], _⟩ => some (.named ⟨none, name, args, none⟩ none)
  | type => if type.opening?.any Type2.isParenthesized then none else some (.keyed ⟨none, none, type, none⟩ none)

theorem entry?_keyed (unopened : x.isParenthesized = false)
    (more : (∀ ident args s, x ≠ .typename ident args s) ∨ op ≠ none ∨ cs ≠ []) :
    TypeExpr.entry? ⟨⟨⟨x, op, s⟩, s'⟩ :: cs, s''⟩ =
      some (.keyed ⟨none, none, ⟨⟨⟨x, op, s⟩, s'⟩ :: cs, s''⟩, none⟩ none) := by
  unfold TypeExpr.entry?
  split
  · rename_i same
    cases same
    cases unopened
  · rename_i same
    cases same
    rcases more with name | none | none
    · exact absurd rfl (name _ _ _)
    · exact absurd rfl none
    · exact absurd rfl none
  · have opening : Option.any Type2.isParenthesized (TypeExpr.opening? ⟨⟨⟨x, op, s⟩, s'⟩ :: cs, s''⟩) = false :=
      unopened
    rw [opening]
    rfl

theorem entry?_opened (opened : x.isParenthesized = true) (more : op ≠ none ∨ cs ≠ []) :
    TypeExpr.entry? ⟨⟨⟨x, op, s⟩, s'⟩ :: cs, s''⟩ = none := by
  unfold TypeExpr.entry?
  split
  · rename_i same
    cases same
    rcases more with none | none
    · exact absurd rfl none
    · exact absurd rfl none
  · rename_i same
    cases same
    cases opened
  · have opening : Option.any Type2.isParenthesized (TypeExpr.opening? ⟨⟨⟨x, op, s⟩, s'⟩ :: cs, s''⟩) = true := opened
    rw [opening]
    rfl

theorem isParenthesized_erase (x : Type2) : x.erase.isParenthesized = x.isParenthesized := by cases x <;> rfl

/-- What no parenthesis opens, unless it is a lone name. -/
theorem entry?_keyed_erase {t : Type1} (unopened : t.operand.isParenthesized = false)
    (typed : (∀ ident a s s', t ≠ ⟨.typename ident a s, none, s'⟩) ∨ cs ≠ []) :
    (⟨typeChoice t :: cs, s⟩ : TypeExpr).erase.entry? =
      some (.keyed ⟨none, none, (⟨typeChoice t :: cs, none⟩ : TypeExpr).erase, none⟩ none) := by
  obtain ⟨x, op, s'⟩ := t
  refine entry?_keyed ((isParenthesized_erase x).trans unopened) ?_
  rcases typed with name | several
  · cases op with
    | some o => exact .inr (.inl (by simp [eraseOperator]))
    | none =>
      refine .inl fun ident a s'' same => ?_
      cases x with
      | typename => exact name _ _ _ _ rfl
      | _ => cases same
  · obtain ⟨d, ds, rfl⟩ := List.exists_cons_of_ne_nil several
    exact .inr (.inr (by simp [eraseTypeChoices]))

/-! ## Reading the entry -/

/-- What is parenthesized is what begins with a parenthesis. -/
theorem nextIs_leftParen_type2 (h : Spells (.type2 x) pre ts after) : nextIs .leftParen ts = x.isParenthesized := by
  cases h with
  | parenthesized opening => exact opening
  | literal body => exact Token.not_is_of_value body
  | tagged body => exact Token.not_is_of_tag body
  | major body => exact Token.not_is_of_tag body
  | typename is => exact Token.not_is is (by decide)
  | map is => exact Token.not_is is (by decide)
  | array is => exact Token.not_is is (by decide)
  | unwrap is => exact Token.not_is is (by decide)
  | choiceFromInlineGroup is => exact Token.not_is is (by decide)
  | choiceFromGroup is => exact Token.not_is is (by decide)
  | any is => exact Token.not_is is (by decide)

/-- A type behind no parenthesis is read as an entry with nothing in front of the type. -/
theorem Spells.keyless {t : Type1} (first : Spells (.type1 t) pre ts (us ++ c :: after))
    (more : Spells (.choices cs) (stopAfter pre ts) us (c :: after)) (start : nextIs .leftParen ts = false)
    (ends : EndsType (c :: after)) (typed : (∀ ident a s s', t ≠ ⟨.typename ident a s, none, s'⟩) ∨ cs ≠ []) :
    ∃ e, e.erase = .keyed ⟨none, none, (⟨typeChoice t :: cs, none⟩ : TypeExpr).erase, none⟩ none ∧
      Spells (.entry e) pre (ts ++ us) (c :: after) := by
  have occurrence : SpellsOccurrence none [] (ts ++ (us ++ c :: after)) := by
    refine .none ?_
    have free := (Spells.type first more).not_beginsOccurrence ends (List.cons_ne_nil _ _)
    rwa [List.append_assoc] at free
  have behind := endsType_choices more ends
  refine ⟨_, ?_, Spells.keylessEntry occurrence first start behind.key ?_ more⟩
  · simp only [GroupEntry.erase, KeyedEntry.erase, Option.map_none, eraseKey, TypeExpr.erase]
  · intro ident a s s' same
    rcases typed with name | several
    · exact absurd same (name ident a s s')
    · cases more with
      | noChoices => exact absurd rfl several
      | moreChoices mark => exact mark

/-- A lone name is read as that of a group. -/
theorem Spells.named {ident : Identifier} {a : Option GenericArgs}
    (first : Spells (.type1 ⟨.typename ident a s, none, s'⟩) pre ts (c :: after)) (ends : EndsType (c :: after))
    (sole : nextIs .typeChoice (c :: after) = false) :
    ∃ e, e.erase = .named ⟨none, ident.erase, eraseArgs a, none⟩ none ∧ Spells (.entry e) pre ts (c :: after) := by
  have free := first.not_beginsGroupEntry_type1 ends
  obtain ⟨t, ts, rfl⟩ := List.exists_cons_of_ne_nil (first.ne_nil rfl)
  have occurrence : SpellsOccurrence none [] (t :: ts ++ c :: after) :=
    .none (not_beginsOccurrence_of_not_beginsGroupEntry free (by simp))
  exact ⟨_, rfl, .namedEntry occurrence first ends.key sole⟩

/-- What no parenthesis opens makes the entry of a lone name or one without a key. -/
theorem Spells.exists_entry_of_start {t : Type1} (first : Spells (.type1 t) pre ts (us ++ c :: after))
    (more : Spells (.choices cs) (stopAfter pre ts) us (c :: after)) (start : nextIs .leftParen ts = false)
    (closing : c.is m = true) (hm : m ∈ closers)
    (he : (⟨typeChoice t :: cs, s⟩ : TypeExpr).erase.entry? = some e) :
    ∃ e', e'.erase = e ∧ Spells (.entry e') pre (ts ++ us) (c :: after) := by
  have ends : EndsType (c :: after) := endsType_of_closer closing hm
  have unopened := isParenthesized_of_start first start
  by_cases lone : (∃ ident a s s', t = ⟨.typename ident a s, none, s'⟩) ∧ cs = []
  · obtain ⟨⟨ident, a, s, s', rfl⟩, rfl⟩ := lone
    cases more
    obtain ⟨e', same, named⟩ := Spells.named first ends (not_next_of_closer closing hm (by decide))
    refine ⟨e', ?_, by rwa [List.append_nil]⟩
    rw [same]
    exact Option.some.inj he
  · have typed : (∀ ident a s s', t ≠ ⟨.typename ident a s, none, s'⟩) ∨ cs ≠ [] := by
      by_cases sole : cs = []
      · exact .inl fun ident a s s' same => lone ⟨⟨ident, a, s, s', same⟩, sole⟩
      · exact .inr sole
    obtain ⟨e', same, keyless⟩ := Spells.keyless first more start ends typed
    refine ⟨e', ?_, keyless⟩
    rw [same]
    rw [entry?_keyed_erase unopened typed] at he
    exact Option.some.inj he

/-- A type that a parenthesis opens and that makes an entry is a type in parentheses. -/
theorem exists_parenthesized {t : Type1} (first : Spells (.type1 t) pre ts (us ++ after))
    (more : Spells (.choices cs) (stopAfter pre ts) us after) (start : nextIs .leftParen ts = true)
    (he : (⟨typeChoice t :: cs, s⟩ : TypeExpr).erase.entry? ≠ none) :
    us = [] ∧ cs = [] ∧ ∃ o vs c ty s s', ts = o :: (vs ++ [c]) ∧ t = ⟨.parenthesized ty s, none, s'⟩ ∧
      o.is .leftParen = true ∧ Spells (.type ty) o.stop vs (c :: after) ∧ c.is .rightParen = true := by
  cases first with
  | range body => exact absurd start (Bool.eq_false_iff.1 (Token.not_is_of_range body))
  | @operands _ x op vs ws _ operand operator =>
    have opened : x.isParenthesized = true := by
      rw [← nextIs_leftParen_type2 operand, ← nextIs_append (operand.ne_nil rfl), start]
    have sole : op = none ∧ cs = [] := by
      refine Decidable.byContradiction fun several => he ?_
      refine entry?_opened ((isParenthesized_erase x).trans opened) ?_
      cases op with
      | some o => exact .inl (by simp [eraseOperator])
      | none =>
        obtain ⟨d, ds, rfl⟩ := List.exists_cons_of_ne_nil fun none => several ⟨rfl, none⟩
        exact .inr (by simp [eraseTypeChoices])
    obtain ⟨rfl, rfl⟩ := sole
    cases more
    cases operator
    cases operand with
    | parenthesized opening type closing =>
      exact ⟨rfl, rfl, _, _, _, _, _, _, List.append_nil _, rfl, opening, type, closing⟩
    | _ => cases opened

/-- **A type alone between brackets is read as the entry that it makes.** -/
theorem Spells.exists_entry {n : Nat} (hn : ts.length ≤ n) (h : Spells (.type ty) pre ts (c :: after))
    (closing : c.is m = true) (hm : m ∈ closers) (he : ty.erase.entry? = some e) :
    ∃ e', e'.erase = e ∧ Spells (.entry e') pre ts (c :: after) := by
  induction n generalizing pre m c ts after ty e with
  | zero => exact absurd (List.length_eq_zero_iff.1 (Nat.le_zero.1 hn)) (h.ne_nil rfl)
  | succ n ih =>
    cases h with
    | @type _ t cs ts us _ first more =>
      cases start : nextIs .leftParen ts with
      | false => exact Spells.exists_entry_of_start first more start closing hm he
      | true =>
        -- a parenthesis opens the type, so it closes it
        obtain ⟨rfl, rfl, o, vs, c', inner, s, s', rfl, rfl, opening, type, closing'⟩ :=
          exists_parenthesized first more start (by rw [he]; simp)
        obtain ⟨e₁, he₁, rfl⟩ : ∃ e₁, inner.erase.entry? = some e₁ ∧ GroupEntry.inline none (.of e₁) none = e :=
          Option.map_eq_some_iff.1 he
        have short : vs.length ≤ n := by
          simp only [List.length_append, List.length_cons, List.length_nil] at hn
          omega
        obtain ⟨e', same, entry⟩ := ih short type closing' (by decide) he₁
        obtain ⟨_, _, group⟩ := spells_soleEntry entry closing' (by decide)
        have occurrence : SpellsOccurrence none [] (o :: (vs ++ c' :: c :: after)) :=
          .none (not_beginsOccurrence_of_is opening (by decide))
        have free : nextIs .arrow (c :: after) = false ∧ nextIs .cut (c :: after) = false :=
          ⟨not_next_of_closer closing hm (by decide), not_next_of_closer closing hm (by decide)⟩
        refine ⟨_, ?_, by simpa using Spells.inlineEntry occurrence opening group closing' free⟩
        simp only [GroupEntry.erase, Option.map_none, Group.erase, eraseGroupChoices, GroupChoice.erase,
          eraseListedEntries, ListedEntry.erase, same, Group.of]

/-! ## Rules for arrays and maps -/

/-- The brackets that make a type of a group. -/
inductive Bracket where
  | array
  | map

namespace Bracket

def opening : Bracket → Mark
  | array => .leftBracket
  | map => .leftBrace

def closing : Bracket → Mark
  | array => .rightBracket
  | map => .rightBrace

def type2 : Bracket → Group → Option Span → Type2
  | array => .array
  | map => .map

variable {b : Bracket} {g : Group}

theorem closing_mem (b : Bracket) : b.closing ∈ closers := by cases b <;> decide

theorem erase_type2 (b : Bracket) (g : Group) (s : Option Span) : (b.type2 g s).erase = b.type2 g.erase none := by
  cases b <;> rfl

theorem spells (opening : o.is b.opening = true) (group : Spells (.group g) o.stop ts (c :: after))
    (closing : c.is b.closing = true) :
    Spells (.type2 (b.type2 g (some ⟨o.location, c.stop⟩))) pre (o :: (ts ++ [c])) after := by
  cases b with
  | array => exact .array opening group closing
  | map => exact .map opening group closing

theorem of_spells (h : Spells (.type2 x) pre (o :: (ts ++ [c])) after) (same : x.erase = b.type2 g none) :
    ∃ g', g'.erase = g ∧ Spells (.group g') o.stop ts (c :: after) := by
  generalize hts : o :: (ts ++ [c]) = all at h
  cases b with
  | array =>
    cases h with
    | array _ group =>
      obtain ⟨rfl, rest⟩ := List.cons.inj hts
      obtain ⟨rfl, last⟩ := List.append_inj' rest rfl
      cases last
      exact ⟨_, (Type2.array.inj same).1, group⟩
    | _ => cases same
  | map =>
    cases h with
    | map _ group =>
      obtain ⟨rfl, rest⟩ := List.cons.inj hts
      obtain ⟨rfl, last⟩ := List.append_inj' rest rfl
      cases last
      exact ⟨_, (Type2.map.inj same).1, group⟩
    | _ => cases same

end Bracket

/-- A type of one operand. -/
def TypeExpr.of (x : Type2) : TypeExpr := ⟨[⟨⟨x, none, none⟩, none⟩], none⟩

theorem spells_of_type2 (h : Spells (.type2 x) pre ts (c :: after)) (limit : c.limits = true) :
    ∃ ty, ty.erase = .of x.erase ∧ Spells (.type ty) pre ts (c :: after) := by
  have operator : Spells (.operator none) (stopAfter pre ts) [] (c :: after) := .noOperator
    (nextIsOperator_iff.2 ⟨Token.not_is_of_limits limit (by decide), Token.not_is_of_limits limit (by decide)⟩)
  have choices : Spells (.choices []) (stopAfter pre (ts ++ [])) [] (c :: after) :=
    .noChoices (Token.not_is_of_limits limit (by decide))
  have type := Spells.type (Spells.operands h operator) choices
  rw [List.append_nil, List.append_nil] at type
  exact ⟨_, rfl, type⟩

theorem Spells.type2_of_type (h : Spells (.type ty) pre ts after) (same : ty.erase = .of x) :
    ∃ x', x'.erase = x ∧ Spells (.type2 x') pre ts after := by
  cases h with
  | @type _ t cs _ _ _ first more =>
    obtain ⟨ht, hcs⟩ := List.cons.inj (congrArg TypeExpr.choices same)
    cases more with
    | moreChoices => cases hcs
    | noChoices =>
      have ht := congrArg TypeChoice.type1 ht
      cases first with
      | range => cases congrArg Type1.operator ht
      | operands operand operator =>
        cases operator with
        | someOperator => cases congrArg Type1.operator ht
        | noOperator =>
          refine ⟨_, congrArg Type1.operand ht, ?_⟩
          simpa using operand

theorem Spells.entry_of_group {g : Group} (h : Spells (.group g) pre ts after) (same : g.erase = .of e) :
    ∃ e', e'.erase = e ∧ Spells (.entry e') pre ts after := by
  cases h with
  | group first more =>
    obtain ⟨hc, hcs⟩ := List.cons.inj (congrArg Group.choices same)
    cases more with
    | moreGroupChoices => cases hcs
    | noGroupChoices =>
      have hes := congrArg GroupChoice.entries hc
      cases first with
      | groupChoice entries =>
        cases entries with
        | noEntries => cases hes
        | commaEntry => cases congrArg ListedEntry.comma (List.cons.inj hes).1
        | plainEntry entry _ more =>
          obtain ⟨he, hes⟩ := List.cons.inj hes
          cases more with
          | plainEntry | commaEntry => cases hes
          | noEntries =>
            refine ⟨_, congrArg ListedEntry.entry he, ?_⟩
            simpa using entry

/-- There are no parameters between a name and an assignment that stands right behind it. -/
theorem SpellsParams.none_of_assigned {gp : Option GenericParams} {ps : List Token} (h : SpellsParams gp ps after)
    (split : eq :: ts = ps ++ us) (free : eq.is .leftAngle = false) : gp = Option.none ∧ ps = [] := by
  cases h with
  | none => exact ⟨rfl, rfl⟩
  | some opening =>
    obtain ⟨rfl, _⟩ := List.cons.inj split
    cases opening.symm.trans free

/-- The tokens around a group in brackets that a name is defined as. -/
structure Bracket.Around (b : Bracket) (name eq o c : Token) : Prop where
  name : name.is .name = true
  sign : eq.is .assign = true
  opening : o.is b.opening = true
  closing : c.is b.closing = true

/-- The rule that defines a name as a group in brackets, spans left out. -/
def Bracket.rule (b : Bracket) (name : Token) (g : Group) : Rule :=
  ⟨.type ⟨(identifier name).erase, none, false, .of (b.type2 g none), none⟩, none⟩

namespace Bracket.Around

variable {b : Bracket} {g : Group} {d : Document} {shown : Text} (h : b.Around name eq o c)
include h

/-- A group that the tokens between the brackets spell is read. -/
theorem exists_parse {l : Token} (hl : endBehind (name :: eq :: o :: (ts ++ [c])) = l)
    (group : Spells (.group g) o.stop ts [c, l, l]) (shown : Text) :
    ∃ d, parseTokens (name :: eq :: o :: (ts ++ [c])) shown = .ok d ∧
      d.rules.map Rule.erase = [b.rule name g.erase] := by
  have ends : l.is .endOfInput = true := hl ▸ endBehind_ends _
  have operand : Spells (.type2 (b.type2 g (some ⟨o.location, c.stop⟩))) eq.stop (o :: (ts ++ [c])) [l, l] :=
    Bracket.spells h.opening group h.closing
  obtain ⟨ty, hty, type⟩ := spells_of_type2 operand (Token.limits_of_is ends (by decide))
  rw [Bracket.erase_type2] at hty
  have assigned : assignment? eq = some .define := by
    unfold assignment?
    rw [Token.is_iff.1 h.sign]
  have start : nextIs .leftParen (o :: (ts ++ [c])) = false := by
    refine Token.not_is h.opening ?_
    cases b <;> decide
  have kind : readsEntry .define (o :: (ts ++ [c]) ++ [l, l]) = false := by
    unfold readsEntry
    rw [type.not_beginsGroupEntry (endsType_of_is ends (by decide))]
    rfl
  have params : SpellsParams none [] (eq :: (o :: (ts ++ [c]) ++ [l, l])) := .none (Token.not_is h.sign (by decide))
  have last : SpellsRules [] [] [l, l] := .nil
  have rules := SpellsRules.cons (.type h.name params assigned start kind type) last
  rw [List.append_nil, List.nil_append] at rules
  subst hl
  obtain ⟨d, read, hd⟩ := exists_parseTokens rules shown
  refine ⟨d, read, ?_⟩
  rw [hd, List.map_singleton, Rule.erase, RuleBody.erase, TypeRule.erase, hty]
  rfl

/-- A group that is read is spelled by the tokens between the brackets. -/
theorem spells_of_value {r : TypeRule} (whole : Unended ts)
    (read : parseTokens (name :: eq :: o :: (ts ++ [c])) shown = .ok d) (rules : d.rules = [⟨.type r, s⟩])
    (value : r.value.erase = .of (b.type2 g none)) :
    ∃ g' l, l.is .endOfInput = true ∧ g'.erase = g ∧ Spells (.group g') o.stop ts [c, l, l] := by
  have unended : Unended (name :: eq :: o :: (ts ++ [c])) := by
    have closing := not_end_of_is h.closing (by cases b <;> decide)
    have opening := not_end_of_is h.opening (by cases b <;> decide)
    simp [not_end_of_is h.name, not_end_of_is h.sign, opening, closing, whole]
  have spelled := spells_of_parseTokens read unended
  generalize hl : endBehind _ = l at spelled
  have ends : l.is .endOfInput = true := hl ▸ endBehind_ends _
  rw [rules] at spelled
  generalize hall : name :: eq :: o :: (ts ++ [c]) = all at spelled
  cases spelled with
  | cons first more =>
    cases more
    rw [List.append_nil] at hall
    cases first with
    | type _ params _ _ _ type =>
      obtain ⟨rfl, behind⟩ := List.cons.inj hall
      obtain ⟨_, rfl⟩ := params.none_of_assigned behind (Token.not_is h.sign (by decide))
      obtain ⟨rfl, rfl⟩ := List.cons.inj behind
      obtain ⟨x, hx, operand⟩ := type.type2_of_type value
      obtain ⟨g', hg, group⟩ := Bracket.of_spells operand hx
      exact ⟨g', l, ends, hg, group⟩

theorem spells (whole : Unended ts) (read : parseTokens (name :: eq :: o :: (ts ++ [c])) shown = .ok d)
    (rules : d.rules.map Rule.erase = [b.rule name g]) : ∃ g' l, l.is .endOfInput = true ∧ g'.erase = g ∧
      Spells (.group g') o.stop ts [c, l, l] := by
  obtain ⟨⟨body, s⟩, rules, hr⟩ := List.map_eq_singleton_iff.1 rules
  cases body with
  | group => cases congrArg Rule.body hr
  | type r =>
    exact h.spells_of_value whole read rules (congrArg TypeRule.value (RuleBody.type.inj (congrArg Rule.body hr)))

end Bracket.Around

/-- What is a key before a colon is one token. -/
theorem exists_token_of_colonKey {t : Type1} {key : MemberKey} (h : Spells (.type1 t) pre ts after)
    (made : colonKey? t = some key) : ∃ n, ts = [n] := by
  cases h with
  | range => cases made
  | operands operand operator =>
    cases operator with
    | someOperator => cases made
    | noOperator =>
      cases operand with
      | literal => exact ⟨_, rfl⟩
      | typename _ args =>
        cases args with
        | noArgs => exact ⟨_, rfl⟩
        | someArgs => cases made
      | _ => cases made

/-- What an entry with a name for its key has behind the colon. -/
theorem Spells.type_of_colonEntry {ident : Identifier} (h : Spells (.entry e) pre (k :: c :: ts) after)
    (same : e.erase = .keyed ⟨none, some (.bareword ident none), ty, none⟩ none) :
    ∃ ty', ty'.erase = ty ∧ Spells (.type ty') c.stop ts after := by
  generalize hall : k :: c :: ts = all at h
  cases h with
  | inlineEntry | namedEntry => cases same
  | keylessEntry | enclosedEntry | arrowEntry => cases (KeyedEntry.mk.inj (GroupEntry.keyed.inj same).1).2.1
  | @colonEntry _ oc k' t made ty' os vs us _ occurrence first start mark hmade type =>
    obtain ⟨hoc, hkey, hty, _⟩ := KeyedEntry.mk.inj (GroupEntry.keyed.inj same).1
    cases Option.map_eq_none_iff.1 hoc
    cases occurrence
    obtain ⟨n, rfl⟩ := exists_token_of_colonKey first hmade
    obtain ⟨rfl, behind⟩ := List.cons.inj hall
    obtain ⟨rfl, rfl⟩ := List.cons.inj behind
    exact ⟨ty', hty, type⟩

/-! ## Phrases in another place -/

variable {ts' after' : List Token} {c' : Token} {j : Int}

/-- What no phrase goes on with may be replaced behind a phrase. -/
theorem SpellsAlike.behind {p : Phrase} (h : SpellsAlike p pre ts (c :: after)) (free : p.enclosed = false)
    (limit : c.limits = true) (limit' : c'.limits = true) : SpellsAlike p pre ts (c' :: after') := by
  have beyond : Beyond ⟨0, 0⟩ (c :: after) (c' :: after') := .limit limit limit'
  cases p with
  | entries | groupChoice | groupChoices | group => cases free
  | _ =>
    obtain ⟨x, same, spelled⟩ := h
    exact ⟨x, same, spelled.behind rfl beyond⟩

/-- A phrase means the same when it is moved and ended by something else. -/
theorem Spells.alike_moved {p : Phrase} (h : Spells p pre ts (c :: after)) (free : p.enclosed = false)
    (moved : List.Forall₂ (Token.Moved j) ts ts') (limit : c.limits = true) (limit' : c'.limits = true)
    (pre' : Location) : SpellsAlike p pre' ts' (c' :: after') := by
  have closed : Spells p pre ts [c'] := h.behind free (.limit limit limit')
  obtain ⟨k, _, mark⟩ := Token.exists_mark_of_limits limit'
  have apart : ∀ t, [c'].head? = some t → t.isUint = false := by
    rintro _ ⟨⟩
    rw [Token.isUint, Token.is_iff.1 mark]
  obtain ⟨us, behind, split, left, spelled⟩ := closed.survives _ (.of_moved_append moved (.refl [c']) apart)
  obtain ⟨_, _, rfl, _, _, left⟩ := left.exists_mark mark
  cases left
  obtain ⟨rfl, last⟩ := List.append_inj' split rfl
  cases last
  exact (spelled pre').behind free limit' limit'

theorem Spells.exists_moved (h : Spells (.type ty) pre ts (c :: after)) (moved : List.Forall₂ (Token.Moved j) ts ts')
    (limit : c.limits = true) (limit' : c'.limits = true) (pre' : Location) :
    ∃ ty', ty'.erase = ty.erase ∧ Spells (.type ty') pre' ts' (c' :: after') :=
  h.alike_moved rfl moved limit limit' pre'

/-! ## Types in parentheses -/

/-- A type in a number of pairs of parentheses. -/
def TypeExpr.inParens (ty : TypeExpr) : Nat → TypeExpr
  | 0 => ty
  | n + 1 => .of (.parenthesized (ty.inParens n) none)

/-- An entry in a group of its own, and that in another, a number of times. -/
def GroupEntry.inGroups (e : GroupEntry) : Nat → GroupEntry
  | 0 => e
  | n + 1 => .inline none (.of (e.inGroups n)) none

/-- A type that no parenthesis opens makes an entry that amounts to it. -/
theorem exists_entry?_of_start (h : Spells (.type ty) pre ts after) (start : nextIs .leftParen ts = false) :
    ∃ e, ty.erase.entry? = some e ∧ e.type? = some ty.erase := by
  cases h with
  | @type _ t cs vs us _ first more =>
    have unopened := isParenthesized_of_start first ((nextIs_append (first.ne_nil rfl)).symm.trans start)
    by_cases lone : (∃ ident a s s', t = ⟨.typename ident a s, none, s'⟩) ∧ cs = []
    · obtain ⟨⟨ident, a, s, s', rfl⟩, rfl⟩ := lone
      exact ⟨_, rfl, rfl⟩
    · have typed : (∀ ident a s s', t ≠ ⟨.typename ident a s, none, s'⟩) ∨ cs ≠ [] := by
        by_cases sole : cs = []
        · exact .inl fun ident a s s' same => lone ⟨⟨ident, a, s, s', same⟩, sole⟩
        · exact .inr sole
      exact ⟨_, entry?_keyed_erase unopened typed, rfl⟩

/-- A pair of parentheses around all tokens of a type is a type in parentheses. -/
theorem Spells.inside_parens (h : Spells (.type ty) pre (o :: (ts ++ [c])) after) (opening : o.is .leftParen = true)
    (inside : Balanced ts) (closing : c.is .rightParen = true) :
    ∃ inner, ty.erase = .of (.parenthesized inner.erase none) ∧ Spells (.type inner) o.stop ts (c :: after) := by
  generalize hall : o :: (ts ++ [c]) = all at h
  cases h with
  | @type _ _ _ _ us _ first more =>
    cases first with
    | range body =>
      cases (List.cons.inj hall).1
      cases opening.symm.trans (Token.not_is_of_range body)
    | @operands _ x op vs ws _ operand operator =>
      have some := operand.ne_nil rfl
      have opened : nextIs .leftParen (vs ++ ws ++ us) = true := by
        rw [← hall]
        exact opening
      rw [nextIs_append (List.append_ne_nil_of_left_ne_nil some ws), nextIs_append some,
        nextIs_leftParen_type2 operand] at opened
      cases operand with
      | @parenthesized _ o' c' inner vs _ _ type closing' =>
        -- the parenthesis is closed where the other one is, so nothing is behind it
        obtain ⟨rfl, same⟩ := List.cons.inj hall
        have ends : ts ++ c :: [] = vs ++ c' :: (ws ++ us) := by
          rw [same]
          simp
        obtain ⟨rfl, rfl, none⟩ := inside.append_inj type.balanced closing closing' ends
        obtain ⟨rfl, rfl⟩ := List.append_eq_nil_iff.1 none.symm
        cases operator
        cases more
        exact ⟨inner, rfl, type⟩
      | _ => cases opened

/-- **A type in pairs of parentheses makes an entry**, with a group for each pair. -/
theorem exists_entry?_of_enclosed {n : Nat} (enclosed : Enclosed n ts) (h : Spells (.type ty) pre ts after) :
    ∃ (inner : TypeExpr) (e : GroupEntry), ty.erase = inner.inParens n ∧ e.type? = some inner ∧
      ty.erase.entry? = some (e.inGroups n) := by
  induction enclosed generalizing ty pre after with
  | bare start =>
    obtain ⟨e, made, amounts⟩ := exists_entry?_of_start h start
    exact ⟨_, e, rfl, amounts, made⟩
  | pair opening inside _ closing ih =>
    obtain ⟨inner, same, type⟩ := h.inside_parens opening inside closing
    obtain ⟨core, e, hinner, amounts, made⟩ := ih type
    refine ⟨core, e, by rw [same, hinner]; rfl, amounts, ?_⟩
    rw [same]
    show inner.erase.entry?.map _ = _
    rw [made]
    rfl

/-- A type that makes an entry is in pairs of parentheses. -/
theorem exists_enclosed {n : Nat} (hn : ts.length ≤ n) (h : Spells (.type ty) pre ts after)
    (he : ty.erase.entry? ≠ none) : ∃ k, Enclosed k ts := by
  induction n generalizing pre ts after ty with
  | zero => exact absurd (List.length_eq_zero_iff.1 (Nat.le_zero.1 hn)) (h.ne_nil rfl)
  | succ n ih =>
    cases h with
    | @type _ t cs ts us _ first more =>
      cases start : nextIs .leftParen ts with
      | false => exact ⟨0, .bare (by rw [nextIs_append (first.ne_nil rfl), start])⟩
      | true =>
        obtain ⟨rfl, rfl, o, vs, c, inner, s, s', rfl, rfl, opening, type, closing⟩ :=
          exists_parenthesized first more start he
        rw [List.append_nil] at hn ⊢
        have short : vs.length ≤ n := by
          simp only [List.length_append, List.length_cons, List.length_nil] at hn
          omega
        obtain ⟨k, enclosed⟩ := ih short type fun none => he (by
          show inner.erase.entry?.map _ = _
          rw [none]
          rfl)
        exact ⟨k + 1, .pair opening type.balanced enclosed closing⟩

theorem entry?_iff_enclosed (h : Spells (.type ty) pre ts after) : ty.erase.entry? ≠ none ↔ ∃ n, Enclosed n ts := by
  constructor
  · exact exists_enclosed (Nat.le_refl _) h
  · rintro ⟨n, enclosed⟩
    obtain ⟨_, _, _, _, made⟩ := exists_entry?_of_enclosed enclosed h
    rw [made]
    exact nofun

/-! ## Entries with and without a key -/

variable {name' eq' o' : Token} {d : Document}

theorem Group.erase_of (e : GroupEntry) (s s' : Option Span) :
    (⟨[⟨[⟨e, false⟩], s⟩], s'⟩ : Group).erase = .of e.erase := by
  simp only [Group.erase, eraseGroupChoices, GroupChoice.erase, eraseListedEntries, ListedEntry.erase, Group.of]

theorem limits_of_closer (closing : c.is m = true) (hm : m ∈ closers) : c.limits = true :=
  Token.limits_of_is closing ((by decide : ∀ m ∈ closers, m ∈ limiting) m hm)

/-- A type that is read behind a key, as the tokens behind the key spell it. -/
theorem Bracket.Around.type_of_keyed {shown : Text} (keyed : Bracket.array.Around name eq o c)
    (whole : Unended (k :: t :: ts)) (read : parseTokens (name :: eq :: o :: (k :: t :: ts ++ [c])) shown = .ok d)
    (rules : d.rules.map Rule.erase = [Bracket.array.rule name
      (.of (.keyed ⟨none, some (.bareword (identifier k).erase none), ty, none⟩ none))]) :
    ∃ ty₀ l, ty₀.erase = ty ∧ Spells (.type ty₀) t.stop ts [c, l, l] := by
  obtain ⟨g, l, _, hg, group⟩ := keyed.spells whole read rules
  obtain ⟨e₀, he₀, entry⟩ := group.entry_of_group hg
  obtain ⟨ty₀, hty₀, type⟩ := entry.type_of_colonEntry he₀
  exact ⟨ty₀, l, hty₀, type⟩

/-- **Which types make an entry without a key is told by their tokens**: those that are spelled with any number of pairs
of parentheses around tokens that do not begin with one.  What is in the parentheses makes an entry that amounts to it,
and each pair of them makes a group of that. -/
theorem entry?_of_keyed {shown : Text} (keyed : Bracket.array.Around name eq o c) (whole : Unended (k :: t :: ts))
    (read : parseTokens (name :: eq :: o :: (k :: t :: ts ++ [c])) shown = .ok d)
    (rules : d.rules.map Rule.erase = [Bracket.array.rule name
      (.of (.keyed ⟨none, some (.bareword (identifier k).erase none), ty, none⟩ none))]) :
    (ty.entry? ≠ none ↔ ∃ n, Enclosed n ts) ∧ ∀ n, Enclosed n ts →
      ∃ (inner : TypeExpr) (e : GroupEntry), ty = inner.inParens n ∧ e.type? = some inner ∧
        ty.entry? = some (e.inGroups n) := by
  obtain ⟨ty₀, l, rfl, type⟩ := keyed.type_of_keyed whole read rules
  exact ⟨entry?_iff_enclosed type, fun n enclosed => exists_entry?_of_enclosed enclosed type⟩

/-- **A type that is read behind a key in an array is read without the key too**, as the entry that it makes, if it
makes one (`entry?_of_keyed`). -/
theorem parse_keyless {shown shown' : Text} (keyed : Bracket.array.Around name eq o c) (whole : Unended (k :: t :: ts))
    (read : parseTokens (name :: eq :: o :: (k :: t :: ts ++ [c])) shown = .ok d)
    (rules : d.rules.map Rule.erase = [Bracket.array.rule name
      (.of (.keyed ⟨none, some (.bareword (identifier k).erase none), ty, none⟩ none))])
    (alone : ty.entry? = some e) (keyless : Bracket.array.Around name' eq' o' c')
    (moved : List.Forall₂ (Token.Moved j) ts ts') :
    ∃ d', parseTokens (name' :: eq' :: o' :: (ts' ++ [c'])) shown' = .ok d' ∧
      d'.rules.map Rule.erase = [Bracket.array.rule name' (.of e)] := by
  have closer (b : Bracket) := b.closing_mem
  obtain ⟨ty₀, l, hty₀, type⟩ := keyed.type_of_keyed whole read rules
  obtain ⟨ty', hty, type'⟩ := type.exists_moved moved (limits_of_closer keyed.closing (closer _))
    (limits_of_closer keyless.closing (closer _)) o'.stop
  obtain ⟨e', he, entry'⟩ := type'.exists_entry (Nat.le_refl _) keyless.closing (closer _) (by rwa [hty, hty₀])
  obtain ⟨_, _, group'⟩ := spells_soleEntry entry' keyless.closing (closer _)
  obtain ⟨d', read', rules'⟩ := keyless.exists_parse rfl group' shown'
  exact ⟨d', read', by rw [rules', Group.erase_of, he]⟩

/-- A type in parentheses, which makes a group of its own. -/
theorem parse_keyless_sample :
    let a : Token := ⟨.mark .name, "a", ⟨1, 1, 0⟩⟩
    let rule (ts : List Token) (n : Int) : List Token := a :: ⟨.mark .assign, "=", ⟨1, 2, 1⟩⟩ ::
      ⟨.mark .leftBracket, "[", ⟨1, 3, 2⟩⟩ :: (ts ++ [⟨.mark .rightBracket, "]", ⟨1, n + 1, n⟩⟩])
    let key : List Token := [⟨.mark .name, "k", ⟨1, 4, 3⟩⟩, ⟨.mark .colon, ":", ⟨1, 5, 4⟩⟩]
    let type (n : Int) : List Token := [⟨.mark .leftParen, "(", ⟨1, n + 1, n⟩⟩, ⟨.mark .name, "b", ⟨1, n + 2, n + 1⟩⟩,
      ⟨.mark .rightParen, ")", ⟨1, n + 3, n + 2⟩⟩]
    (∃ d, parseTokens (rule (key ++ type 5) 8) [] = .ok d) ∧ ∃ d', parseTokens (rule (type 3) 6) [] = .ok d' ∧
      d'.rules.map Rule.erase =
        [Bracket.array.rule a (.of (.inline none (.of (.named ⟨none, ⟨"b", none, none⟩, none, none⟩ none)) none))] := by
  intro a rule key type
  have keyed : ∃ d, parseTokens (rule (key ++ type 5) 8) [] = .ok d ∧ decide (d.rules.map Rule.erase =
      [Bracket.array.rule a (.of (.keyed ⟨none, some (.bareword ⟨"k", none, none⟩ none),
        .of (.parenthesized (.of (.typename ⟨"b", none, none⟩ none none)) none), none⟩ none))]) = true :=
    exists_parseTokens_of_any (by decide +kernel)
  obtain ⟨d, read, rules⟩ := keyed
  have moved : List.Forall₂ (Token.Moved (-2)) (type 5) (type 3) :=
    .cons ⟨rfl, rfl, rfl⟩ (.cons ⟨rfl, rfl, rfl⟩ (.cons ⟨rfl, rfl, rfl⟩ .nil))
  exact ⟨⟨d, read⟩, parse_keyless (c := ⟨.mark .rightBracket, "]", ⟨1, 9, 8⟩⟩) ⟨rfl, rfl, rfl, rfl⟩
    (by unfold Unended; decide) read (of_decide_eq_true rules) rfl ⟨rfl, rfl, rfl, rfl⟩ moved⟩

/-- A type in parentheses makes no entry without a key, but a group, and one that begins with parentheses makes none. -/
theorem not_parse_keyless :
    let a : Token := ⟨.mark .name, "a", ⟨1, 1, 0⟩⟩
    let rule (ts : List Token) (n : Int) : List Token := a :: ⟨.mark .assign, "=", ⟨1, 2, 1⟩⟩ ::
      ⟨.mark .leftBracket, "[", ⟨1, 3, 2⟩⟩ :: (ts ++ [⟨.mark .rightBracket, "]", ⟨1, n + 1, n⟩⟩])
    let key : List Token := [⟨.mark .name, "k", ⟨1, 4, 3⟩⟩, ⟨.mark .colon, ":", ⟨1, 5, 4⟩⟩]
    let enclosed (n : Int) : List Token := [⟨.mark .leftParen, "(", ⟨1, n + 1, n⟩⟩,
      ⟨.mark .name, "int", ⟨1, n + 2, n + 1⟩⟩, ⟨.mark .rightParen, ")", ⟨1, n + 5, n + 4⟩⟩]
    let either (n : Int) : List Token :=
      enclosed n ++ [⟨.mark .typeChoice, "/", ⟨1, n + 6, n + 5⟩⟩, ⟨.mark .name, "text", ⟨1, n + 7, n + 6⟩⟩]
    let int : Type2 := .parenthesized (.of (.typename ⟨"int", none, none⟩ none none)) none
    let text : Type2 := .typename ⟨"text", none, none⟩ none none
    let keyed (type : TypeExpr) : Rule :=
      Bracket.array.rule a (.of (.keyed ⟨none, some (.bareword ⟨"k", none, none⟩ none), type, none⟩ none))
    (∃ d d' e, parseTokens (rule (key ++ enclosed 5) 10) [] = .ok d ∧ d.rules.map Rule.erase = [keyed (.of int)] ∧
      parseTokens (rule (enclosed 3) 8) [] = .ok d' ∧ d'.rules.map Rule.erase = [Bracket.array.rule a (.of e)] ∧
        e.type? = none) ∧
    ∃ d, parseTokens (rule (key ++ either 5) 15) [] = .ok d ∧
      d.rules.map Rule.erase = [keyed ⟨[⟨⟨int, none, none⟩, none⟩, ⟨⟨text, none, none⟩, none⟩], none⟩] ∧
        ∀ d', parseTokens (rule (either 3) 13) [] ≠ .ok d' := by
  intro a rule key enclosed either int text keyed
  have first : ∃ d, parseTokens (rule (key ++ enclosed 5) 10) [] = .ok d ∧
      decide (d.rules.map Rule.erase = [keyed (.of int)]) = true := exists_parseTokens_of_any (by decide +kernel)
  have alone : ∃ d, parseTokens (rule (enclosed 3) 8) [] = .ok d ∧ decide (d.rules.map Rule.erase =
      [Bracket.array.rule a (.of (.inline none
        (.of (.named ⟨none, ⟨"int", none, none⟩, none, none⟩ none)) none))]) = true :=
    exists_parseTokens_of_any (by decide +kernel)
  have second : ∃ d, parseTokens (rule (key ++ either 5) 15) [] = .ok d ∧ decide (d.rules.map Rule.erase =
      [keyed ⟨[⟨⟨int, none, none⟩, none⟩, ⟨⟨text, none, none⟩, none⟩], none⟩]) = true :=
    exists_parseTokens_of_any (by decide +kernel)
  have fails : (parseTokens (rule (either 3) 13) []).toOption.isNone = true := by decide +kernel
  obtain ⟨d, read, rules⟩ := first
  obtain ⟨d', read', rules'⟩ := alone
  obtain ⟨d'', read'', rules''⟩ := second
  refine ⟨⟨d, d', _, read, of_decide_eq_true rules, read', of_decide_eq_true rules', rfl⟩, d'', read'',
    of_decide_eq_true rules'', fun d' same => ?_⟩
  rw [same] at fails
  cases fails

/-! ## Keys in parentheses -/

/-- **A type that no parenthesis opens is a key in parentheses**, the same type as by itself. -/
theorem parse_typeKey {q r v : Token} (whole : Unended ts) (read : asType? ts = some ty)
    (start : nextIs .leftParen ts = false) (frame : Bracket.map.Around name eq o c)
    (moved : List.Forall₂ (Token.Moved j) ts ts')
    (opening : k.is .leftParen = true) (closing : q.is .rightParen = true) (arrow : r.is .arrow = true)
    (value : v.is .name = true) (shown : Text) :
    ∃ d, parseTokens (name :: eq :: o :: (k :: (ts' ++ [q, r, v]) ++ [c])) shown = .ok d ∧
      d.rules.map Rule.erase = [Bracket.map.rule name (.of (.keyed
        ⟨none, some (.enclosed (.type ty.erase none) none), .of (.typename (identifier v).erase none none), none⟩
        none))] := by
  have closed := limits_of_closer frame.closing Bracket.map.closing_mem
  generalize hl : endBehind _ = l
  obtain ⟨pre, type⟩ := spells_of_asType? read whole
  obtain ⟨ty', hty, type'⟩ : ∃ ty', ty'.erase = ty.erase ∧ Spells (.type ty') k.stop ts' (q :: r :: v :: [c, l, l]) :=
    type.exists_moved moved (Token.limits_of_is (endBehind_ends ts) (by decide))
      (limits_of_closer closing (by decide)) k.stop
  obtain ⟨e, made, amounts⟩ := exists_entry?_of_start type start
  obtain ⟨e', he, entry⟩ := type'.exists_entry (Nat.le_refl _) closing (by decide) (by rwa [hty])
  obtain ⟨_, _, inner⟩ := spells_soleEntry entry closing (by decide)
  have occurrence : SpellsOccurrence none [] (k :: (ts' ++ q :: ([r] ++ ([v] ++ [c, l, l])))) :=
    .none (not_beginsOccurrence_of_is opening (by decide))
  have args : Spells (.args none) v.stop [] [c, l, l] := .noArgs (Token.not_is_of_limits closed (by decide))
  have operand : Spells (.type2 (.typename (identifier v) none _)) (stopAfter q.stop [r]) [v] [c, l, l] :=
    .typename value args
  obtain ⟨tv, htv, named⟩ := spells_of_type2 operand closed
  have keyed : Spells (.entry (.keyed ⟨none, some (.enclosed _ _), tv, _⟩ _)) o.stop
      ([] ++ k :: (ts' ++ q :: ([r] ++ [v]))) [c, l, l] :=
    .enclosedEntry occurrence opening inner closing (.plain arrow) named
  obtain ⟨_, _, group⟩ := spells_soleEntry keyed frame.closing Bracket.map.closing_mem
  have tokens : [] ++ k :: (ts' ++ q :: ([r] ++ [v])) = k :: (ts' ++ [q, r, v]) := by simp
  rw [tokens] at group
  obtain ⟨d, parsed, rules⟩ := frame.exists_parse hl group shown
  obtain ⟨ty'', key, same⟩ : ∃ ty'', e'.type? = some ty'' ∧ ty''.erase = ty.erase :=
    Option.map_eq_some_iff.1 ((type?_erase e').trans (by rw [he, amounts]))
  refine ⟨d, parsed, ?_⟩
  rw [rules, Group.erase_of, enclosedKey_of_sole rfl key]
  simp only [GroupEntry.erase, KeyedEntry.erase, Option.map_none, eraseKey, MemberKey.erase, NonMemberKey.erase, same,
    htv, Type2.erase, eraseArgs]

/-- A name with an argument, which the key is made of an entry for a group of. -/
theorem parse_typeKey_sample :
    let a : Token := ⟨.mark .name, "a", ⟨1, 1, 0⟩⟩
    let v : Token := ⟨.mark .name, "v", ⟨1, 12, 11⟩⟩
    let type (n : Int) : List Token := [⟨.mark .name, "b", ⟨1, n + 1, n⟩⟩, ⟨.mark .leftAngle, "<", ⟨1, n + 2, n + 1⟩⟩,
      ⟨.mark .name, "c", ⟨1, n + 3, n + 2⟩⟩, ⟨.mark .rightAngle, ">", ⟨1, n + 4, n + 3⟩⟩]
    ∃ ty, asType? (type 0) = some ty ∧ ∃ d, parseTokens (a :: ⟨.mark .assign, "=", ⟨1, 2, 1⟩⟩ ::
        ⟨.mark .leftBrace, "\x7b", ⟨1, 3, 2⟩⟩ :: (⟨.mark .leftParen, "(", ⟨1, 4, 3⟩⟩ :: (type 4 ++
          [⟨.mark .rightParen, ")", ⟨1, 9, 8⟩⟩, ⟨.mark .arrow, "=>", ⟨1, 10, 9⟩⟩, v]) ++
            [⟨.mark .rightBrace, "\x7d", ⟨1, 13, 12⟩⟩])) [] = .ok d ∧
      d.rules.map Rule.erase = [Bracket.map.rule a (.of (.keyed
        ⟨none, some (.enclosed (.type ty.erase none) none), .of (.typename (identifier v).erase none none), none⟩
        none))] := by
  intro a v type
  have read : (asType? (type 0)).isSome = true := by decide +kernel
  obtain ⟨ty, read⟩ := Option.isSome_iff_exists.1 read
  have moved : List.Forall₂ (Token.Moved 4) (type 0) (type 4) :=
    .cons ⟨rfl, rfl, rfl⟩ (.cons ⟨rfl, rfl, rfl⟩ (.cons ⟨rfl, rfl, rfl⟩ (.cons ⟨rfl, rfl, rfl⟩ .nil)))
  exact ⟨ty, read, parse_typeKey (by unfold Unended; decide) read rfl ⟨rfl, rfl, rfl, rfl⟩ moved rfl rfl rfl rfl []⟩

end Cddl
