import Cddl.Proofs.Placement
/-!
# Where the nodes of a phrase stand

The nodes that a phrase is read to lie in their order between its first token and the token after it.
-/
namespace Cddl

/-- The nodes of a phrase, side by side. -/
def Phrase.nodes : Phrase → List Node
  | .type2 t => [.type2 t]
  | .operator o => o.toList.map .operator
  | .type1 t => [.type1 t]
  | .choices cs => cs.map .typeChoice
  | .type t => [.type t]
  | .args a => Node.ofArgs a
  | .moreArgs as => as.map .genericArg
  | .entry e => [.groupEntry e]
  | .entries es => es.map fun e => .groupEntry e.entry
  | .groupChoice c => [.groupChoice c]
  | .groupChoices cs => cs.map .groupChoice
  | .group g => [.group g]

/-- How far behind the start of the next token a phrase may reach. -/
def Phrase.slack : Phrase → Int
  | .groupChoice _ | .groupChoices _ | .group _ => 1
  | _ => 0

/-- How far behind the start of its first token the nodes of a phrase begin. -/
def Phrase.lead : Phrase → Int
  | .groupChoices _ => 1
  | _ => 0

/-- The nodes of a phrase stand between its tokens and what comes after them. -/
def Phrase.Placed (p : Phrase) (ts after : List Token) : Prop :=
  Spread (startOf (ts ++ after) + p.lead) p.nodes (startOf after + p.slack)

variable {lo mid hi hi' : Int} {n : Node} {s : Span} {t c : Token} {ts us after : List Token} {pre : Location}

@[simp] theorem startOf_cons : startOf (t :: ts) = t.location.offset := rfl

namespace Spread

/-! ## Nodes around a node that has been placed -/

/-- A node before what is below it. -/
theorem around (span : n.span = some s) (low : lo ≤ s.start.offset) (first : s.start.offset < mid)
    (below : Spread mid n.children hi') (last : hi' ≤ hi) : Spread lo [n] hi := by
  have := below.le
  exact .one span low (by omega) (below.mono (by omega) last)

/-- A node over some tokens, around what starts with the first of them. -/
theorem covering (span : n.span = some (.over pre ts after)) (less : startOf (ts ++ after) < hi)
    (below : Spread (startOf (ts ++ after)) n.children hi) : Spread (startOf (ts ++ after)) [n] hi :=
  .one span (Int.le_of_eq (offset_over pre ts after).symm) (by rw [offset_over]; exact less) below

theorem lt (h : Spread lo [n] hi) (hn : n.kind ≠ .value) : lo < hi := by
  obtain ⟨s, _, low, high, _⟩ := h.inv hn
  exact Int.lt_of_le_of_lt low high

/-- A node over what two phrases were read to, one right behind the other. -/
theorem pair {ns ms : List Node} (span : n.span = some (.over pre (ts ++ us) after)) (children : n.children = ns ++ ms)
    (less : startOf (ts ++ (us ++ after)) < mid) (left : Spread (startOf (ts ++ (us ++ after))) ns mid)
    (right : Spread mid ms hi) : Spread (startOf (ts ++ us ++ after)) [n] hi := by
  rw [← List.append_assoc] at less left
  refine .covering span (Int.lt_of_lt_of_le less right.le) ?_
  rw [children]
  exact left.append right

/-- An entry with a type in the place where all its parts are. -/
theorem keyed {e : KeyedEntry} (span : e.span = some (.over pre ts after)) (less : startOf (ts ++ after) < hi)
    (below : Spread (startOf (ts ++ after)) (Node.keyedEntry e).children hi) :
    Spread (startOf (ts ++ after)) [.groupEntry (.keyed e (some (.over pre ts after)))] hi :=
  .covering rfl less (.covering span less below)

theorem typeChoice {t : Type1} (h : Spread lo [.type1 t] hi) :
    Spread lo [.typeChoice (Production.typeChoice t)] hi := by
  obtain ⟨s, span, low, high, _⟩ := h.inv (by simp [Node.kind])
  exact .one span low high h

theorem genericArg {t : Type1} (h : Spread lo [.type1 t] hi) : Spread lo [.genericArg ⟨t, t.span⟩] hi := by
  obtain ⟨s, span, low, high, _⟩ := h.inv (by simp [Node.kind])
  exact .one span low high h

theorem identifier (low : lo ≤ t.location.offset) (high : t.location.offset < hi) :
    Spread lo [.identifier (Production.identifier t)] hi :=
  .one (Production.identifier_span t) low high (.nil (by omega))

theorem name {a : Option GenericArgs} {mid : Int} (low : lo ≤ t.location.offset) (high : t.location.offset < mid)
    (args : Spread mid (Node.ofArgs a) hi) : Spread lo (Node.ofName (Production.identifier t) a) hi :=
  (identifier low high).append args

theorem colonKey {t : Type1} {key : MemberKey} (h : Spread lo [.type1 t] hi)
    (made : Production.colonKey? t = some key) : Spread lo [.memberKey key] hi := by
  obtain ⟨operand, operator, span⟩ := t
  unfold Production.colonKey? at made
  obtain ⟨_, _, _, _, h⟩ := h.inv (by simp [Node.kind])
  split at made
  case h_1 ident s hop harg =>
    cases hop
    cases harg
    cases made
    obtain ⟨_, span, low, high, below⟩ := h.inv (by simp [Node.kind])
    exact .one span low high below
  case h_2 v s hop harg =>
    cases hop
    cases harg
    cases made
    obtain ⟨_, span, low, high, below⟩ := h.inv (by simp [Node.kind])
    exact .one span low high below
  case h_3 => cases made

/-- What stands in parentheses as a key is placed as the group that it was read as. -/
theorem enclosed {g : Group} (h : Spread lo [.group g] hi) :
    Spread lo [.memberKey (.enclosed (Production.enclosedKey g) g.span)] hi := by
  obtain ⟨s, span, low, high, below⟩ := h.inv (by simp [Node.kind])
  have wrap {k : NonMemberKey} (hk : k.span = g.span) (below : Spread lo (Node.nonMemberKey k).children hi) :
      Spread lo [.memberKey (.enclosed k g.span)] hi :=
    .one span low high (.one (hk.trans span) low high below)
  obtain ⟨choices, gspan⟩ := g
  unfold Production.enclosedKey
  split
  case h_1 type _ _ _ hg =>
    cases hg
    obtain ⟨_, _, _, _, below⟩ := below.inv (by simp [Node.kind])
    obtain ⟨_, _, _, _, below⟩ := below.inv (by simp [Node.kind])
    obtain ⟨_, _, _, _, below⟩ := below.inv (by simp [Node.kind])
    exact wrap rfl below
  case h_2 name args span _ _ _ hg =>
    cases hg
    obtain ⟨_, _, _, _, below⟩ := below.inv (by simp [Node.kind])
    obtain ⟨_, _, _, _, below⟩ := below.inv (by simp [Node.kind])
    obtain ⟨s, span, low, high, below⟩ := below.inv (by simp [Node.kind])
    exact wrap rfl (.one span low high (.one span low high (.one span low high (.one span low high below))))
  case h_3 => exact wrap rfl h

end Spread

/-! ## The nodes of each phrase -/

theorem Laid.inside {o : Token} (laid : Laid (o :: (ts ++ [c]) ++ after)) (hne : after ≠ [])
    (ho : o.is .endOfInput = false) (hc : c.is .endOfInput = false) :
    Laid (ts ++ c :: after) ∧ o.location.offset < startOf (ts ++ c :: after) ∧
      c.location.offset + 1 ≤ startOf after := by
  have whole : Laid (o :: (ts ++ c :: after)) := by simpa using laid
  have inner := whole.tail
  exact ⟨inner, whole.start_lt ho (by simp), inner.right.start_lt hc hne⟩

theorem SpellsOccurrence.spread {oc : Option Occurrence} (h : SpellsOccurrence oc ts after) (hne : after ≠ [])
    (laid : Laid (ts ++ after)) : Spread (startOf (ts ++ after)) (Node.ofOccurrence oc) (startOf after) := by
  have place {o : Occurrence} {s : Span} (span : o.span = some s) (start : s.start.offset = startOf (ts ++ after))
      (some : ts ≠ []) : Spread (startOf (ts ++ after)) (Node.ofOccurrence (.some o)) (startOf after) := by
    have less := laid.start_lt_of_ne_nil h.unended some hne
    exact .one span (by omega) (by omega) (.nil (by omega))
  cases h with
  | none => exact .nil (Int.le_refl _)
  | optional => exact place rfl rfl (by simp)
  | oneOrMore => exact place rfl rfl (by simp)
  | zeroOrMore => exact place rfl rfl (by simp)
  | upTo => exact place rfl rfl (by simp)
  | atLeast => exact place rfl rfl (by simp)
  | fromTo => exact place rfl rfl (by simp)

/-- The parts of an entry, behind its occurrence. -/
theorem SpellsOccurrence.before {oc : Option Occurrence} {ns : List Node} (h : SpellsOccurrence oc ts after)
    (hne : after ≠ []) (laid : Laid (ts ++ after)) (low : startOf after ≤ lo) (less : lo < hi)
    (rest : Spread lo ns hi) :
    startOf (ts ++ after) < hi ∧ Spread (startOf (ts ++ after)) (Node.ofOccurrence oc ++ ns) hi := by
  have front := h.spread hne laid
  exact ⟨Int.lt_of_le_of_lt (Int.le_trans front.le low) less, front.append (rest.mono low (Int.le_refl _))⟩

/-- Two literals around an operator. -/
theorem Spread.range {l m u stop : Location} {lower upper : Literal} {symbol : RangeOrControl}
    (first : l.offset < m.offset) (second : m.offset ≤ u.offset) (last : u.offset < hi) :
    Spread l.offset [.type1 ⟨.literal lower (some ⟨l, m⟩),
      some ⟨symbol, .literal upper (some ⟨u, stop⟩), some ⟨m, stop⟩⟩, some ⟨l, stop⟩⟩] hi := by
  have left : Spread l.offset [.type2 (.literal lower (some ⟨l, m⟩))] m.offset :=
    .one rfl (Int.le_refl _) first (.value (.nil (Int.le_of_lt first)))
  have operand : Spread m.offset [.type2 (.literal upper (some ⟨u, stop⟩))] hi :=
    .one rfl second last (.value (.nil (by omega)))
  have right : Spread m.offset [.operator ⟨symbol, .literal upper (some ⟨u, stop⟩), some ⟨m, stop⟩⟩] hi :=
    .one rfl (Int.le_refl _) (Int.lt_of_le_of_lt second last) operand
  exact .one rfl (Int.le_refl _) (Int.lt_trans first (Int.lt_of_le_of_lt second last)) (left.append right)

/-- A range lies in its token, the operator behind the lower bound. -/
theorem placed_range {lower upper : Literal} {inclusive : Bool} (body : t.body = .range lower upper inclusive)
    (hne : after ≠ []) (laid : Laid (t :: after)) :
    Spread t.location.offset [.type1 (Production.rangeType1 t lower upper inclusive t.stop)] (startOf after) := by
  obtain ⟨u, r, more, scanned, text⟩ := (laid.2 t List.mem_cons_self).exists_scan (Token.not_is_of_range body)
  rw [body] at scanned
  obtain ⟨k, hk, pos, inside⟩ := indexOf?_range scanned
  rw [← text] at hk inside
  have stop := laid.stop_le hne
  simp only [Token.stop, Location.shift] at stop
  unfold Production.rangeType1
  rw [hk]
  refine Spread.range ?_ ?_ ?_
  · simp only [Location.shift, Option.getD_some]
    omega
  · simp only [Location.shift, Option.getD_some]
    split <;> omega
  · simp only [Location.shift, Option.getD_some]
    cases inclusive <;> simp only [Bool.false_eq_true, if_true, if_false] at inside ⊢ <;> omega

/-! ## Entries -/

section

variable {o : Token} {g : Group} {ty : TypeExpr} {oc : Option Occurrence} {os as : List Token} {cut : Bool} {t₁ : Type1}

theorem placed_inlineEntry (occurrence : SpellsOccurrence oc os (o :: (ts ++ c :: after)))
    (opening : o.is .leftParen = true) (closing : c.is .rightParen = true)
    (inner : c :: after ≠ [] → Laid (ts ++ c :: after) →
      Spread (startOf (ts ++ c :: after)) [.group g] (startOf (c :: after) + 1))
    (hne : after ≠ []) (laid : Laid (os ++ o :: (ts ++ [c]) ++ after)) :
    Spread (startOf (os ++ o :: (ts ++ [c]) ++ after))
      [.groupEntry (.inline oc g (some (.over pre (os ++ o :: (ts ++ [c])) after)))] (startOf after) := by
  have split : os ++ o :: (ts ++ [c]) ++ after = os ++ o :: (ts ++ c :: after) := by simp
  rw [split] at laid
  have first := laid.right.start_lt (not_end_of_is opening (by decide)) (by simp)
  have last := laid.right.tail.right.start_lt (not_end_of_is closing (by decide)) hne
  have group := (inner (by simp) laid.right.tail).mono (Int.le_refl _) last
  obtain ⟨less, below⟩ :=
    occurrence.before (by simp) laid (Int.le_of_lt first) (group.lt (by simp [Node.kind])) group
  rw [← split] at less below
  exact .covering rfl less below

theorem placed_enclosedEntry (occurrence : SpellsOccurrence oc os (o :: (ts ++ c :: (as ++ (us ++ after)))))
    (opening : o.is .leftParen = true) (closing : c.is .rightParen = true) (arrow : SpellsArrow cut as)
    (inner : c :: (as ++ (us ++ after)) ≠ [] → Laid (ts ++ c :: (as ++ (us ++ after))) →
      Spread (startOf (ts ++ c :: (as ++ (us ++ after)))) [.group g] (startOf (c :: (as ++ (us ++ after))) + 1))
    (value : after ≠ [] → Laid (us ++ after) → Spread (startOf (us ++ after)) [.type ty] (startOf after))
    (hne : after ≠ []) (laid : Laid (os ++ o :: (ts ++ c :: (as ++ us)) ++ after)) :
    Spread (startOf (os ++ o :: (ts ++ c :: (as ++ us)) ++ after)) [.groupEntry (.keyed
      ⟨oc, some (.enclosed (Production.enclosedKey g) g.span), ty,
        some (.over pre (os ++ o :: (ts ++ c :: (as ++ us))) after)⟩
      (some (.over pre (os ++ o :: (ts ++ c :: (as ++ us))) after)))] (startOf after) := by
  have split : os ++ o :: (ts ++ c :: (as ++ us)) ++ after = os ++ o :: (ts ++ c :: (as ++ (us ++ after))) := by simp
  rw [split] at laid
  have first := laid.right.start_lt (not_end_of_is opening (by decide)) (by simp)
  have rest := laid.right.tail.right
  have closed := rest.start_lt (not_end_of_is closing (by decide)) (by simp [hne])
  have last := Int.le_trans closed (rest.tail.start_le arrow.unended (by simp [hne]))
  have key := ((inner (by simp) laid.right.tail).mono (Int.le_refl _) last).enclosed
  have type := value hne rest.tail.right
  have parts := Int.lt_of_lt_of_le (key.lt (by simp [Node.kind])) type.le
  obtain ⟨less, below⟩ := occurrence.before (by simp) laid (Int.le_of_lt first) parts (key.append type)
  rw [← split] at less below
  exact .keyed rfl less (by simpa [Node.children] using below)

theorem placed_colonEntry {key : MemberKey} (occurrence : SpellsOccurrence oc os (ts ++ c :: (us ++ after)))
    (mark : c.is .colon = true) (made : Production.colonKey? t₁ = some key)
    (first : c :: (us ++ after) ≠ [] → Laid (ts ++ c :: (us ++ after)) →
      Spread (startOf (ts ++ c :: (us ++ after))) [.type1 t₁] (startOf (c :: (us ++ after))))
    (value : after ≠ [] → Laid (us ++ after) → Spread (startOf (us ++ after)) [.type ty] (startOf after))
    (hne : after ≠ []) (laid : Laid (os ++ (ts ++ c :: us) ++ after)) :
    Spread (startOf (os ++ (ts ++ c :: us) ++ after)) [.groupEntry (.keyed
      ⟨oc, some key, ty, some (.over pre (os ++ (ts ++ c :: us)) after)⟩
      (some (.over pre (os ++ (ts ++ c :: us)) after)))] (startOf after) := by
  have split : os ++ (ts ++ c :: us) ++ after = os ++ (ts ++ c :: (us ++ after)) := by simp
  rw [split] at laid
  have colon := laid.right.right.start_lt (not_end_of_is mark (by decide)) (by simp [hne])
  have key := ((first (by simp) laid.right).colonKey made).mono (Int.le_refl _) (Int.le_of_lt colon)
  have type := value hne laid.right.right.tail
  have parts := Int.lt_of_lt_of_le (key.lt (by simp [Node.kind])) type.le
  obtain ⟨less, below⟩ := occurrence.before (by simp) laid (Int.le_refl _) parts (key.append type)
  rw [← split] at less below
  exact .keyed rfl less (by simpa [Node.children] using below)

theorem placed_arrowEntry (occurrence : SpellsOccurrence oc os (ts ++ (as ++ (us ++ after))))
    (arrow : SpellsArrow cut as)
    (first : as ++ (us ++ after) ≠ [] → Laid (ts ++ (as ++ (us ++ after))) →
      Spread (startOf (ts ++ (as ++ (us ++ after)))) [.type1 t₁] (startOf (as ++ (us ++ after))))
    (value : after ≠ [] → Laid (us ++ after) → Spread (startOf (us ++ after)) [.type ty] (startOf after))
    (hne : after ≠ []) (laid : Laid (os ++ (ts ++ (as ++ us)) ++ after)) :
    Spread (startOf (os ++ (ts ++ (as ++ us)) ++ after)) [.groupEntry (.keyed
      ⟨oc, some (.type1 t₁ cut (some (.over (stopAfter pre os) (ts ++ as) (us ++ after)))), ty,
        some (.over pre (os ++ (ts ++ (as ++ us))) after)⟩
      (some (.over pre (os ++ (ts ++ (as ++ us))) after)))] (startOf after) := by
  have split : os ++ (ts ++ (as ++ us)) ++ after = os ++ (ts ++ (as ++ (us ++ after))) := by simp
  rw [split] at laid
  have type1 := first (by simp [hne]) laid.right
  have behind := laid.right.right.start_le arrow.unended (by simp [hne])
  have key : Spread (startOf (ts ++ (as ++ (us ++ after)))) [.memberKey (.type1 t₁ cut
      (some (.over (stopAfter pre os) (ts ++ as) (us ++ after))))] (startOf (us ++ after)) := by
    have less := Int.lt_of_lt_of_le (type1.lt (by simp [Node.kind])) behind
    have inner := type1.mono (Int.le_refl _) behind
    rw [← List.append_assoc] at less inner ⊢
    exact .covering rfl less inner
  have type := value hne laid.right.right.right
  have parts := Int.lt_of_lt_of_le (key.lt (by simp [Node.kind])) type.le
  obtain ⟨less, below⟩ := occurrence.before (by simp [hne]) laid (Int.le_refl _) parts (key.append type)
  rw [← split] at less below
  exact .keyed rfl less (by simpa [Node.children] using below)

theorem placed_namedEntry {ident : Identifier} {args : Option GenericArgs} {s s' : Option Span}
    (occurrence : SpellsOccurrence oc os (ts ++ after))
    (inner : after ≠ [] → Laid (ts ++ after) →
      Spread (startOf (ts ++ after)) [.type1 ⟨.typename ident args s, none, s'⟩] (startOf after))
    (hne : after ≠ []) (laid : Laid (os ++ ts ++ after)) :
    Spread (startOf (os ++ ts ++ after)) [.groupEntry (.named ⟨oc, ident, args, some (.over pre (os ++ ts) after)⟩
      (some (.over pre (os ++ ts) after)))] (startOf after) := by
  rw [List.append_assoc] at laid
  have type1 := inner hne laid.right
  obtain ⟨_, _, _, _, type2⟩ := type1.inv (by simp [Node.kind])
  obtain ⟨_, _, _, _, name⟩ := type2.inv (by simp [Node.kind])
  obtain ⟨less, below⟩ :=
    occurrence.before (by simp [hne]) laid (Int.le_refl _) (type1.lt (by simp [Node.kind])) name
  rw [← List.append_assoc] at less below
  exact .covering rfl less (.covering rfl less below)

theorem placed_keylessEntry {cs : List TypeChoice} (occurrence : SpellsOccurrence oc os (ts ++ (us ++ after)))
    (first : us ++ after ≠ [] → Laid (ts ++ (us ++ after)) →
      Spread (startOf (ts ++ (us ++ after))) [.type1 t₁] (startOf (us ++ after)))
    (more : after ≠ [] → Laid (us ++ after) → Spread (startOf (us ++ after)) (cs.map .typeChoice) (startOf after))
    (hne : after ≠ []) (laid : Laid (os ++ (ts ++ us) ++ after)) :
    Spread (startOf (os ++ (ts ++ us) ++ after)) [.groupEntry (.keyed
      ⟨oc, none, ⟨Production.typeChoice t₁ :: cs, some (.over (stopAfter pre os) (ts ++ us) after)⟩,
        some (.over pre (os ++ (ts ++ us)) after)⟩
      (some (.over pre (os ++ (ts ++ us)) after)))] (startOf after) := by
  have split : os ++ (ts ++ us) ++ after = os ++ (ts ++ us ++ after) := by simp
  have assoc : ts ++ us ++ after = ts ++ (us ++ after) := List.append_assoc _ _ _
  rw [split] at laid
  have whole := laid.right
  rw [assoc] at whole
  have left := first (by simp [hne]) whole
  have type : Spread (startOf (ts ++ us ++ after)) [.type ⟨Production.typeChoice t₁ :: cs,
      some (.over (stopAfter pre os) (ts ++ us) after)⟩] (startOf after) :=
    .pair rfl rfl (left.lt (by simp [Node.kind])) left.typeChoice (more hne whole.right)
  rw [← assoc] at occurrence
  obtain ⟨less, below⟩ :=
    occurrence.before (by simp [hne]) laid (Int.le_refl _) (type.lt (by simp [Node.kind])) type
  rw [← split] at less below
  exact .keyed rfl less (by simpa [Node.children] using below)

end

/-! ## All phrases -/

/-- **The nodes of a phrase stand in their order among its tokens.** -/
theorem placed_of_spells {p : Phrase} (h : Spells p pre ts after) :
    after ≠ [] → Laid (ts ++ after) → p.Placed ts after := by
  induction h
  all_goals
    intro hne laid
    simp only [Phrase.Placed, Phrase.nodes, Phrase.lead, Phrase.slack, Int.add_zero] at *
  case literal body =>
    have less := laid.start_lt (Token.not_is_of_value body) hne
    exact .one rfl (Int.le_refl _) less (.value (.nil (Int.le_of_lt less)))
  case typename name _ ih =>
    have first := laid.start_lt (not_end_of_is name (by decide)) (by simp [hne])
    have args := ih hne laid.tail
    exact .one rfl (Int.le_refl _) (Int.lt_of_lt_of_le first args.le) (.name (Int.le_refl _) first args)
  case parenthesized opening _ closing ih =>
    obtain ⟨inner, first, last⟩ :=
      laid.inside hne (not_end_of_is opening (by decide)) (not_end_of_is closing (by decide))
    have type := ih (by simp) inner
    exact .around rfl (Int.le_refl _) first type (Int.le_trans (Int.le_add_one (Int.le_refl _)) last)
  case map opening _ closing ih =>
    obtain ⟨inner, first, last⟩ :=
      laid.inside hne (not_end_of_is opening (by decide)) (not_end_of_is closing (by decide))
    exact .around rfl (Int.le_refl _) first (ih (by simp) inner) last
  case array opening _ closing ih =>
    obtain ⟨inner, first, last⟩ :=
      laid.inside hne (not_end_of_is opening (by decide)) (not_end_of_is closing (by decide))
    exact .around rfl (Int.le_refl _) first (ih (by simp) inner) last
  case unwrap opening name _ ih =>
    have before := laid.start_lt (not_end_of_is opening (by decide)) (by simp)
    have first := laid.tail.start_lt (not_end_of_is name (by decide)) (by simp [hne])
    have args := ih hne laid.tail.tail
    exact .around rfl (Int.le_refl _) before (.name (Int.le_refl _) first args) (Int.le_refl _)
  case choiceFromInlineGroup mark opening _ closing ih =>
    have before := laid.start_lt (not_end_of_is mark (by decide)) (by simp)
    obtain ⟨inner, first, last⟩ := laid.tail.inside hne (not_end_of_is opening (by decide))
      (not_end_of_is closing (by decide))
    exact .around rfl (Int.le_refl _) (Int.lt_trans before first) (ih (by simp) inner) last
  case choiceFromGroup mark name _ ih =>
    have before := laid.start_lt (not_end_of_is mark (by decide)) (by simp)
    have first := laid.tail.start_lt (not_end_of_is name (by decide)) (by simp [hne])
    have args := ih hne laid.tail.tail
    exact .around rfl (Int.le_refl _) before (.name (Int.le_refl _) first args) (Int.le_refl _)
  case tagged body opening _ closing ih =>
    have before := laid.start_lt (Token.not_is_of_tag body) (by simp)
    obtain ⟨inner, first, last⟩ := laid.tail.inside hne (not_end_of_is opening (by decide))
      (not_end_of_is closing (by decide))
    exact .around rfl (Int.le_refl _) (Int.lt_trans before first) (ih (by simp) inner)
      (Int.le_trans (Int.le_add_one (Int.le_refl _)) last)
  case major body _ _ =>
    have less := laid.start_lt (Token.not_is_of_tag body) hne
    exact .one rfl (Int.le_refl _) less (.nil (Int.le_of_lt less))
  case any mark =>
    have less := laid.start_lt (not_end_of_is mark (by decide)) hne
    exact .one rfl (Int.le_refl _) less (.nil (Int.le_of_lt less))
  case noOperator => exact .nil (Int.le_refl _)
  case someOperator mark _ ih =>
    have first := laid.start_lt (not_end_of_operatorSymbol? mark) (by simp [hne])
    exact .around rfl (Int.le_refl _) first (ih hne laid.tail) (Int.le_refl _)
  case range body => exact placed_range body hne laid
  case operands ih ih' =>
    rw [List.append_assoc] at laid
    have left := ih (by simp [hne]) laid
    exact .pair rfl rfl (left.lt (by simp [Node.kind])) left (ih' hne laid.right)
  case noChoices => exact .nil (Int.le_refl _)
  case moreChoices mark _ _ ih ih' =>
    rw [List.cons_append, List.append_assoc] at laid ⊢
    have first := laid.start_lt (not_end_of_is mark (by decide)) (by simp [hne])
    have left := ih (by simp [hne]) laid.tail
    have right := ih' hne laid.tail.right
    exact (left.typeChoice.append right).mono (Int.le_of_lt first) (Int.le_refl _)
  case type ih ih' =>
    rw [List.append_assoc] at laid
    have left := ih (by simp [hne]) laid
    exact .pair rfl rfl (left.lt (by simp [Node.kind])) left.typeChoice (ih' hne laid.right)
  case noArgs => exact .nil (Int.le_refl _)
  case someArgs opening _ _ closing ih ih' =>
    obtain ⟨inner, first, last⟩ :=
      laid.inside hne (not_end_of_is opening (by decide)) (not_end_of_is closing (by decide))
    rw [List.append_assoc] at inner first
    have left := ih (by simp) inner
    have right := ih' (by simp) inner.right
    exact .around rfl (Int.le_refl _) first (left.genericArg.append right)
      (Int.le_trans (Int.le_add_one (Int.le_refl _)) last)
  case noMoreArgs => exact .nil (Int.le_refl _)
  case moreArgs mark _ _ ih ih' =>
    rw [List.cons_append, List.append_assoc] at laid ⊢
    have first := laid.start_lt (not_end_of_is mark (by decide)) (by simp [hne])
    have left := ih (by simp [hne]) laid.tail
    have right := ih' hne laid.tail.right
    exact (left.genericArg.append right).mono (Int.le_of_lt first) (Int.le_refl _)
  case inlineEntry occurrence opening _ closing _ ih => exact placed_inlineEntry occurrence opening closing ih hne laid
  case enclosedEntry occurrence opening _ closing arrow _ ih ih' =>
    exact placed_enclosedEntry occurrence opening closing arrow ih ih' hne laid
  case colonEntry occurrence _ _ mark made _ ih ih' => exact placed_colonEntry occurrence mark made ih ih' hne laid
  case arrowEntry occurrence _ _ arrow _ ih ih' => exact placed_arrowEntry occurrence arrow ih ih' hne laid
  case namedEntry occurrence _ _ _ ih => exact placed_namedEntry occurrence ih hne laid
  case keylessEntry occurrence _ _ _ _ _ ih ih' => exact placed_keylessEntry occurrence ih ih' hne laid
  case noEntries => exact .nil (Int.le_refl _)
  case plainEntry ih ih' =>
    rw [List.append_assoc] at laid ⊢
    exact (ih (by simp [hne]) laid).append (ih' hne laid.right)
  case commaEntry mark _ ih ih' =>
    rw [List.append_assoc] at laid ⊢
    have comma := laid.right.start_lt (not_end_of_is mark (by decide)) (by simp [hne])
    exact ((ih (by simp) laid).mono (Int.le_refl _) (Int.le_of_lt comma)).append (ih' hne laid.right.tail)
  case groupChoice ih =>
    have entries := ih hne laid
    exact .covering rfl (Int.lt_add_one_of_le entries.le)
      (entries.mono (Int.le_refl _) (Int.le_add_one (Int.le_refl _)))
  case noGroupChoices => exact .nil (Int.le_refl _)
  case moreGroupChoices mark _ _ ih' ih =>
    rw [List.cons_append, List.append_assoc] at laid ⊢
    have first := laid.start_lt (not_end_of_is mark (by decide)) (by simp [hne])
    exact ((ih (by simp [hne]) laid.tail).append (ih' hne laid.tail.right)).mono first (Int.le_refl _)
  case group ih' ih =>
    rw [List.append_assoc] at laid
    have left := ih (by simp [hne]) laid
    exact .pair rfl rfl (left.lt (by simp [Node.kind])) left (ih' hne laid.right)

end Cddl
