import Cddl.Proofs.Motion
/-!
# Phrases that are moved

Tokens that are moved together spell what they have spelled, moved as they are (`spells_moved`).
-/
namespace Cddl

open Production

variable {m : Motion} {ts after after' : List Token} {pre : Location} {k : Mark}

theorem Motion.nextIs_map (m : Motion) (k : Mark) (ts : List Token) : nextIs k (ts.map m.token) = nextIs k ts := by
  cases ts <;> rfl

theorem typeChoice_respan (f : Option Span → Option Span) (t : Type1) :
    (typeChoice t).respan f = typeChoice (t.respan f) := by
  rw [typeChoice, TypeChoice.respan, typeChoice, Type1.span_respan]

/-- A type that is a name with other places is one. -/
theorem typename_of_respan {f : Option Span → Option Span} {t : Type1} {ident : Identifier} {a : Option GenericArgs}
    {s s' : Option Span} (h : t.respan f = ⟨.typename ident a s, none, s'⟩) :
    ∃ ident a s s', t = ⟨.typename ident a s, none, s'⟩ := by
  obtain ⟨operand, operator, span⟩ := t
  cases operator with
  | some o => cases congrArg Type1.operator h
  | none =>
    cases operand with
    | typename ident a s => exact ⟨ident, a, s, span, rfl⟩
    | _ => cases congrArg Type1.operand h

/-! ## Entries -/

/-- A phrase can be moved, with other tokens behind it that no rule goes on with. -/
def Moves (m : Motion) (p : Phrase) (pre : Location) (ts after : List Token) : Prop :=
  ∀ {after' : List Token}, Beyond m after after' → (p.enclosed = true → Heads m after after') →
    Spells (p.respan m.spans) (m.place pre) (ts.map m.token) after'

namespace Moves

variable {o c k : Token} {os as us : List Token} {oc : Option Occurrence} {g : Group} {t : Type1} {ty : TypeExpr}
  {cut : Bool}

theorem inlineEntry (occurrence : SpellsOccurrence oc os (o :: (ts ++ c :: after))) (opening : o.is .leftParen = true)
    (group : Moves m (.group g) o.stop ts (c :: after)) (closing : c.is .rightParen = true)
    (free : nextIs .arrow after = false ∧ nextIs .cut after = false) :
    Moves m (.entry (.inline oc g (some (.over pre (os ++ o :: (ts ++ [c])) after)))) pre (os ++ o :: (ts ++ [c]))
      after := by
  intro after' beyond _
  have group := group beyond.token fun _ => .cons
  have occurs := occurrence.moved (beyond.token.append ts).token
  rw [← m.stop_token] at group
  rw [Phrase.respan, GroupEntry.respan,
    m.spans_over _ _ after' (List.append_ne_nil_of_right_ne_nil _ (List.cons_ne_nil _ _))]
  simp only [List.map_append, List.map_cons, List.map_nil]
  exact .inlineEntry occurs opening group closing
    ⟨(beyond.nextIs (by decide)).trans free.1, (beyond.nextIs (by decide)).trans free.2⟩

theorem enclosedEntry (occurrence : SpellsOccurrence oc os (o :: (ts ++ c :: (as ++ (us ++ after)))))
    (opening : o.is .leftParen = true) (group : Moves m (.group g) o.stop ts (c :: (as ++ (us ++ after))))
    (closing : c.is .rightParen = true) (arrow : SpellsArrow cut as)
    (type : Moves m (.type ty) (stopAfter c.stop as) us after) :
    Moves m (.entry (.keyed
      ⟨oc, some (.enclosed (enclosedKey g) g.span), ty, some (.over pre (os ++ o :: (ts ++ c :: (as ++ us))) after)⟩
      (some (.over pre (os ++ o :: (ts ++ c :: (as ++ us))) after))))
      pre (os ++ o :: (ts ++ c :: (as ++ us))) after := by
  intro after' beyond _
  have behind := (beyond.append us).append as
  have group := group behind.token fun _ => .cons
  have type := type beyond (.of_open rfl)
  have occurs := occurrence.moved (behind.token.append ts).token
  rw [← m.stop_token] at group
  rw [← m.stopAfter_map, ← m.stop_token] at type
  rw [Phrase.respan, GroupEntry.respan, KeyedEntry.respan, respanKey, MemberKey.respan, enclosedKey_respan,
    ← Group.span_respan m.spans,
    m.spans_over _ _ after' (List.append_ne_nil_of_right_ne_nil _ (List.cons_ne_nil _ _))]
  simp only [List.map_append, List.map_cons]
  exact .enclosedEntry occurs opening group closing arrow.moved type

theorem colonEntry {key : MemberKey} (occurrence : SpellsOccurrence oc os (ts ++ k :: (us ++ after)))
    (first : Moves m (.type1 t) (stopAfter pre os) ts (k :: (us ++ after))) (start : nextIs .leftParen ts = false)
    (mark : k.is .colon = true) (made : colonKey? t = some key) (type : Moves m (.type ty) k.stop us after) :
    Moves m (.entry (.keyed ⟨oc, some key, ty, some (.over pre (os ++ (ts ++ k :: us)) after)⟩
      (some (.over pre (os ++ (ts ++ k :: us)) after)))) pre (os ++ (ts ++ k :: us)) after := by
  intro after' beyond _
  have behind := (beyond.append us).token (t := k)
  have first := first behind (.of_open rfl)
  have type := type beyond (.of_open rfl)
  have occurs := occurrence.moved (behind.append ts)
  have made : colonKey? (t.respan m.spans) = some (key.respan m.spans) := by rw [← colonKey?_respan, made]; rfl
  have taken : os ++ (ts ++ k :: us) ≠ [] :=
    List.append_ne_nil_of_right_ne_nil _ (List.append_ne_nil_of_right_ne_nil _ (List.cons_ne_nil _ _))
  rw [← m.stopAfter_map] at first
  rw [← m.stop_token] at type
  rw [Phrase.respan, GroupEntry.respan, KeyedEntry.respan, respanKey, m.spans_over _ _ after' taken]
  simp only [List.map_append, List.map_cons]
  exact .colonEntry occurs first ((m.nextIs_map _ _).trans start) mark made type

theorem arrowEntry (occurrence : SpellsOccurrence oc os (ts ++ (as ++ (us ++ after)))) (taken : ts ≠ [])
    (first : Moves m (.type1 t) (stopAfter pre os) ts (as ++ (us ++ after))) (start : nextIs .leftParen ts = false)
    (arrow : SpellsArrow cut as) (type : Moves m (.type ty) (stopAfter pre (os ++ (ts ++ as))) us after) :
    Moves m (.entry (.keyed
      ⟨oc, some (.type1 t cut (some (.over (stopAfter pre os) (ts ++ as) (us ++ after)))), ty,
        some (.over pre (os ++ (ts ++ (as ++ us))) after)⟩
      (some (.over pre (os ++ (ts ++ (as ++ us))) after)))) pre (os ++ (ts ++ (as ++ us))) after := by
  intro after' beyond _
  have behind := (beyond.append us).append as
  have first := first behind (.of_open rfl)
  have type := type beyond (.of_open rfl)
  have occurs := occurrence.moved (behind.append ts)
  rw [← m.stopAfter_map] at first type
  rw [Phrase.respan, GroupEntry.respan, KeyedEntry.respan, respanKey, MemberKey.respan,
    m.spans_over _ _ (us.map m.token ++ after') (List.append_ne_nil_of_left_ne_nil taken _), ← m.stopAfter_map,
    m.spans_over _ _ after' (List.append_ne_nil_of_right_ne_nil _ (List.append_ne_nil_of_left_ne_nil taken _))]
  simp only [List.map_append] at type ⊢
  exact .arrowEntry occurs first ((m.nextIs_map _ _).trans start) arrow.moved type

theorem namedEntry {ident : Identifier} {a : Option GenericArgs} {s s' : Option Span}
    (occurrence : SpellsOccurrence oc os (ts ++ after)) (taken : ts ≠ [])
    (first : Moves m (.type1 ⟨.typename ident a s, none, s'⟩) (stopAfter pre os) ts after)
    (free : nextIsKeyEnd after = false) (sole : nextIs .typeChoice after = false) :
    Moves m (.entry (.named ⟨oc, ident, a, some (.over pre (os ++ ts) after)⟩ (some (.over pre (os ++ ts) after)))) pre
      (os ++ ts) after := by
  intro after' beyond _
  have first := first beyond (.of_open rfl)
  have occurs := occurrence.moved (beyond.append ts)
  rw [← m.stopAfter_map] at first
  rw [Phrase.respan, GroupEntry.respan, NamedEntry.respan,
    m.spans_over _ _ after' (List.append_ne_nil_of_right_ne_nil _ taken), List.map_append]
  exact .namedEntry occurs first (beyond.nextIsKeyEnd.trans free) ((beyond.nextIs (by decide)).trans sole)

theorem keylessEntry {cs : List TypeChoice} (occurrence : SpellsOccurrence oc os (ts ++ (us ++ after)))
    (taken : ts ≠ [])
    (first : Moves m (.type1 t) (stopAfter pre os) ts (us ++ after)) (start : nextIs .leftParen ts = false)
    (free : nextIsKeyEnd (us ++ after) = false)
    (typed : ∀ ident a s s', t = ⟨.typename ident a s, none, s'⟩ → nextIs .typeChoice (us ++ after) = true)
    (more : Moves m (.choices cs) (stopAfter pre (os ++ ts)) us after) :
    Moves m (.entry (.keyed
      ⟨oc, none, ⟨typeChoice t :: cs, some (.over (stopAfter pre os) (ts ++ us) after)⟩,
        some (.over pre (os ++ (ts ++ us)) after)⟩
      (some (.over pre (os ++ (ts ++ us)) after)))) pre (os ++ (ts ++ us)) after := by
  intro after' beyond _
  have behind := beyond.append us
  have first := first behind (.of_open rfl)
  have more := more beyond (.of_open rfl)
  have occurs := occurrence.moved (behind.append ts)
  rw [← m.stopAfter_map] at first more
  rw [Phrase.respan, GroupEntry.respan, KeyedEntry.respan, respanKey, TypeExpr.respan, respanTypeChoices,
    typeChoice_respan, m.spans_over _ _ after' (List.append_ne_nil_of_left_ne_nil taken _), ← m.stopAfter_map,
    m.spans_over _ _ after' (List.append_ne_nil_of_right_ne_nil _ (List.append_ne_nil_of_left_ne_nil taken _))]
  simp only [List.map_append] at more ⊢
  refine .keylessEntry occurs first ((m.nextIs_map _ _).trans start) (behind.nextIsKeyEnd.trans free) ?_ more
  intro ident a s s' same
  obtain ⟨ident, a, s, s', rfl⟩ := typename_of_respan same
  exact (behind.nextIs (by decide)).trans (typed ident a s s' rfl)

end Moves

/-! ## Phrases -/

/-- **A phrase may be moved, and what stands behind it need not be moved along if no rule goes on with it.** -/
theorem spells_moved {p : Phrase} (h : Spells p pre ts after) : Moves m p pre ts after := by
  induction h
  all_goals
    intro after' beyond heads
    rw [Phrase.respan]
  case literal body =>
    rw [Type2.respan, m.spans_token]
    exact .literal body
  case typename t a ts after name _ ih =>
    have args := ih beyond (.of_open rfl)
    rw [← m.stop_token] at args
    rw [Type2.respan, m.identifier_token, m.spans_over _ _ after' (List.cons_ne_nil _ _), List.map_cons]
    exact .typename name args
  case parenthesized opening _ closing ih =>
    have type := ih beyond.token (.of_open rfl)
    rw [← m.stop_token] at type
    rw [Type2.respan, m.spans_between, List.map_cons, List.map_append]
    exact .parenthesized opening type closing
  case map opening _ closing ih =>
    have group := ih beyond.token fun _ => .cons
    rw [← m.stop_token] at group
    rw [Type2.respan, m.spans_between, List.map_cons, List.map_append]
    exact .map opening group closing
  case array opening _ closing ih =>
    have group := ih beyond.token fun _ => .cons
    rw [← m.stop_token] at group
    rw [Type2.respan, m.spans_between, List.map_cons, List.map_append]
    exact .array opening group closing
  case unwrap opening name _ ih =>
    have args := ih beyond (.of_open rfl)
    rw [← m.stop_token] at args
    rw [Type2.respan, m.identifier_token, m.spans_over _ _ after' (List.cons_ne_nil _ _), List.map_cons, List.map_cons]
    exact .unwrap opening name args
  case choiceFromInlineGroup mark opening _ closing ih =>
    have group := ih beyond.token fun _ => .cons
    rw [← m.stop_token] at group
    rw [Type2.respan, m.spans_between, List.map_cons, List.map_cons, List.map_append]
    exact .choiceFromInlineGroup mark opening group closing
  case choiceFromGroup mark name _ ih =>
    have args := ih beyond (.of_open rfl)
    rw [← m.stop_token] at args
    rw [Type2.respan, m.identifier_token, m.spans_over _ _ after' (List.cons_ne_nil _ _), List.map_cons, List.map_cons]
    exact .choiceFromGroup mark name args
  case tagged body opening _ closing ih =>
    have type := ih beyond.token (.of_open rfl)
    rw [← m.stop_token] at type
    rw [Type2.respan, m.spans_between, List.map_cons, List.map_cons, List.map_append]
    exact .tagged body opening type closing
  case major body bound free =>
    rw [Type2.respan, m.spans_token]
    exact .major body bound fun six => (beyond.nextIs (by decide)).trans (free six)
  case any mark =>
    rw [Type2.respan, m.spans_token]
    exact .any mark
  case noOperator free => exact .noOperator (beyond.nextIsOperator.trans free)
  case someOperator mark _ ih =>
    have operand := ih beyond (.of_open rfl)
    rw [← m.stop_token] at operand
    rw [respanOperator, Operator.respan, m.spans_over _ _ after' (List.cons_ne_nil _ _), List.map_cons]
    exact .someOperator mark operand
  case range body =>
    rw [m.rangeType1_token]
    exact .range body
  case operands first _ ih ih' =>
    have operand := ih (beyond.append _) (.of_open rfl)
    have operator := ih' beyond (.of_open rfl)
    rw [← m.stopAfter_map] at operator
    rw [Type1.respan, m.spans_over _ _ after' (List.append_ne_nil_of_left_ne_nil (first.ne_nil rfl) _), List.map_append]
    exact .operands operand operator
  case noChoices free => exact .noChoices ((beyond.nextIs (by decide)).trans free)
  case moreChoices s t cs ts us after mark _ _ ih ih' =>
    have first := ih (beyond.append _) (.of_open rfl)
    have more := ih' beyond (.of_open rfl)
    rw [← m.stop_token] at first
    rw [← m.stopAfter_map, ← m.stop_token] at more
    rw [respanTypeChoices, typeChoice_respan, List.map_cons, List.map_append]
    exact .moreChoices mark first more
  case type first _ ih ih' =>
    have choice := ih (beyond.append _) (.of_open rfl)
    have more := ih' beyond (.of_open rfl)
    rw [← m.stopAfter_map] at more
    rw [TypeExpr.respan, respanTypeChoices, typeChoice_respan,
      m.spans_over _ _ after' (List.append_ne_nil_of_left_ne_nil (first.ne_nil rfl) _), List.map_append]
    exact .type choice more
  case noArgs free => exact .noArgs ((beyond.nextIs (by decide)).trans free)
  case someArgs opening _ _ closing ih ih' =>
    have first := ih (beyond.token.append _) (.of_open rfl)
    have more := ih' beyond.token (.of_open rfl)
    rw [← m.stop_token] at first
    rw [← m.stopAfter_map, ← m.stop_token] at more
    rw [respanArgs, GenericArgs.respan, respanGenericArgs, GenericArg.respan, ← Type1.span_respan m.spans,
      m.spans_between, List.map_cons, List.map_append, List.map_append]
    exact .someArgs opening first more closing
  case noMoreArgs free => exact .noMoreArgs ((beyond.nextIs (by decide)).trans free)
  case moreArgs mark _ _ ih ih' =>
    have first := ih (beyond.append _) (.of_open rfl)
    have more := ih' beyond (.of_open rfl)
    rw [← m.stop_token] at first
    rw [← m.stopAfter_map, ← m.stop_token] at more
    rw [respanGenericArgs, GenericArg.respan, ← Type1.span_respan m.spans, List.map_cons, List.map_append]
    exact .moreArgs mark first more
  case inlineEntry occurrence opening _ closing free ih =>
    exact Moves.inlineEntry occurrence opening ih closing free beyond heads
  case enclosedEntry occurrence opening _ closing arrow _ ih ih' =>
    exact Moves.enclosedEntry occurrence opening ih closing arrow ih' beyond heads
  case colonEntry occurrence _ start mark made _ ih ih' =>
    exact Moves.colonEntry occurrence ih start mark made ih' beyond heads
  case arrowEntry occurrence inner start arrow _ ih ih' =>
    exact Moves.arrowEntry occurrence (inner.ne_nil rfl) ih start arrow ih' beyond heads
  case namedEntry occurrence inner free sole ih =>
    exact Moves.namedEntry occurrence (inner.ne_nil rfl) ih free sole beyond heads
  case keylessEntry occurrence inner start free typed _ ih ih' =>
    exact Moves.keylessEntry occurrence (inner.ne_nil rfl) ih start free typed ih' beyond heads
  case noEntries after free =>
    refine .noEntries ?_
    obtain ⟨t, first, first'⟩ := heads rfl
    rw [nextEndsChoice, first] at free
    rw [nextEndsChoice, first']
    exact free
  case plainEntry free _ ih ih' =>
    have entry := ih (beyond.append _) (.of_open rfl)
    have more := ih' beyond heads
    rw [← m.stopAfter_map] at more
    rw [respanListedEntries, ListedEntry.respan, List.map_append]
    exact .plainEntry entry (((beyond.append _).nextIs (by decide)).trans free) more
  case commaEntry mark _ ih ih' =>
    have entry := ih (beyond.append _).token (.of_open rfl)
    have more := ih' beyond heads
    rw [← m.stop_token] at more
    rw [respanListedEntries, ListedEntry.respan, List.map_append, List.map_cons]
    exact .commaEntry entry mark more
  case groupChoice ih =>
    rw [GroupChoice.respan, (heads rfl).append.spans_over]
    exact .groupChoice (ih beyond heads)
  case noGroupChoices free => exact .noGroupChoices ((beyond.nextIs (by decide)).trans free)
  case moreGroupChoices mark _ _ ih ih' =>
    have first := ih (beyond.append _) fun _ => (heads rfl).append
    have more := ih' beyond heads
    rw [← m.stop_token] at first
    rw [← m.stopAfter_map, ← m.stop_token] at more
    rw [respanGroupChoices, List.map_cons, List.map_append]
    exact .moreGroupChoices mark first more
  case group ih ih' =>
    have first := ih (beyond.append _) fun _ => (heads rfl).append
    have more := ih' beyond heads
    rw [← m.stopAfter_map] at more
    rw [Group.respan, respanGroupChoices, (heads rfl).append.spans_over, List.map_append]
    exact .group first more

/-! ## What stands behind a phrase -/

theorem Phrase.respan_id (p : Phrase) : p.respan id = p := by
  cases p with
  | type2 t => exact congrArg _ t.respan_id
  | operator o => exact congrArg _ (respanOperator_id o)
  | type1 t => exact congrArg _ t.respan_id
  | choices cs => exact congrArg _ (respanTypeChoices_id cs)
  | type t => exact congrArg _ t.respan_id
  | args a => exact congrArg _ (respanArgs_id a)
  | moreArgs as => exact congrArg _ (respanGenericArgs_id as)
  | entry e => exact congrArg _ e.respan_id
  | entries es => exact congrArg _ (respanListedEntries_id es)
  | groupChoice c => exact congrArg _ c.respan_id
  | groupChoices cs => exact congrArg _ (respanGroupChoices_id cs)
  | group g => exact congrArg _ g.respan_id

/-- A phrase stays where it is, and other tokens that no phrase goes on with come to stand behind it. -/
theorem Spells.behind {p : Phrase} (h : Spells p pre ts after) (free : p.enclosed = false)
    (beyond : Beyond ⟨0, 0⟩ after after') : Spells p pre ts after' := by
  have moved := spells_moved h beyond (.of_open free)
  rwa [Motion.spans_zero, Phrase.respan_id, Motion.place_zero, Motion.map_token_zero] at moved

end Cddl
