import Cddl.Proofs.Containment
/-!
# What the stretch of a phrase contains

The nodes of a phrase fit in between the start of its first token and the end of its last one.  Tokens and nodes are put
together in step: nodes over some tokens, then nodes over those behind them (`Fits.seq`), and a node around all that has
been read since its start (`Fits.cover`).
-/
namespace Cddl

/-! ## Tokens behind a place -/

/-- Tokens as they are read from a text, behind a token that ends at the given place. -/
structure Follows (pre : Location) (ts : List Token) : Prop where
  laid : Laid ts
  start : pre.offset ≤ startOf ts

variable {pre : Location} {t o c s : Token} {ts us after : List Token} {n : Node} {ns ms : List Node}

theorem Token.location_le_stop (t : Token) : t.location.offset ≤ t.stop.offset := by
  simp only [Token.stop, Location.shift]
  omega

namespace Follows

theorem tail (h : Follows pre (t :: ts)) (hts : ts ≠ []) : Follows t.stop ts := ⟨h.laid.tail, h.laid.stop_le hts⟩

theorem rest (h : Follows pre (ts ++ us)) (hus : us ≠ []) : Follows (stopAfter pre ts) us := by
  induction ts generalizing pre with
  | nil => exact h
  | cons t ts ih => exact ih (h.tail (List.append_ne_nil_of_right_ne_nil _ hus))

theorem stop_le (h : Follows pre (ts ++ us)) (hus : us ≠ []) : (stopAfter pre ts).offset ≤ startOf us :=
  (h.rest hus).start

theorem le_stop (h : Follows pre (ts ++ us)) (hus : us ≠ []) : pre.offset ≤ (stopAfter pre ts).offset := by
  induction ts generalizing pre with
  | nil => exact Int.le_refl _
  | cons t ts ih =>
    have rest := ih (h.tail (List.append_ne_nil_of_right_ne_nil _ hus))
    exact Int.le_trans h.start (Int.le_trans t.location_le_stop rest)

theorem start_le (h : Follows pre (ts ++ us)) (hus : us ≠ []) : startOf (ts ++ us) ≤ startOf us := by
  cases ts with
  | nil => exact Int.le_refl _
  | cons t ts =>
    have tail := h.tail (List.append_ne_nil_of_right_ne_nil _ hus)
    exact Int.le_trans t.location_le_stop (Int.le_trans (tail.le_stop hus) (tail.stop_le hus))

end Follows

/-! ## Nodes over tokens -/

/-- Nodes that fit in over some tokens. -/
def Fits (pre : Location) (ts after : List Token) (ns : List Node) : Prop :=
  Fit (startOf (ts ++ after)) ns (stopAfter pre ts).offset

namespace Fits

theorem none : Fits pre ts after [] := Fit.nil

/-- Nodes over tokens, and nodes over the tokens behind them. -/
theorem seq (first : Fits pre ts (us ++ after) ns) (second : Fits (stopAfter pre ts) us after ms)
    (h : Follows pre (ts ++ (us ++ after))) (hne : after ≠ []) : Fits pre (ts ++ us) after (ns ++ ms) := by
  have some : us ++ after ≠ [] := List.append_ne_nil_of_right_ne_nil _ hne
  have fit := Fit.append first second (h.start_le some) (h.stop_le some) ((h.rest some).le_stop hne)
  unfold Fits
  rw [List.append_assoc, stopAfter_append]
  exact fit

/-- A node around what has been read since its start. -/
theorem cover (span : n.span = some (.over pre ts after)) (below : Fits pre ts after n.children) :
    Fits pre ts after [n] := by
  refine .one span (Int.le_of_eq (offset_over pre ts after).symm) (Int.le_refl _) ?_
  rw [offset_over]
  exact below

/-- Nodes behind a first token. -/
theorem lead (h : Follows pre (t :: (ts ++ after))) (hne : after ≠ []) (below : Fits t.stop ts after ns) :
    Fits pre (t :: ts) after ns := by
  have first : Fits pre [t] (ts ++ after) [] := none
  exact first.seq below h hne

/-- Nodes before a last token. -/
theorem last (h : Follows pre (ts ++ c :: after)) (hne : after ≠ []) (above : Fits pre ts (c :: after) ns) :
    Fits pre (ts ++ [c]) after ns := by
  have closing : Fits (stopAfter pre ts) [c] after [] := none
  have both := above.seq closing h hne
  rwa [List.append_nil] at both

/-- Nodes between two brackets. -/
theorem between (h : Follows pre (o :: (ts ++ [c]) ++ after)) (hne : after ≠ [])
    (inner : Follows o.stop (ts ++ c :: after) → Fits o.stop ts (c :: after) ns) :
    Fits pre (o :: (ts ++ [c])) after ns := by
  have split : o :: (ts ++ [c]) ++ after = o :: (ts ++ c :: after) := by simp
  rw [split] at h
  have inside := h.tail (by simp)
  refine lead (by simpa using h) hne ?_
  exact (inner inside).last inside hne

/-! ## Parts of nodes -/

theorem identifier : Fits pre [t] after [.identifier (Production.identifier t)] :=
  cover (Production.identifier_span t) none

theorem name {a : Option GenericArgs} (h : Follows pre (t :: (ts ++ after))) (hne : after ≠ [])
    (args : Fits t.stop ts after (Node.ofArgs a)) :
    Fits pre (t :: ts) after (Node.ofName (Production.identifier t) a) := by
  have first : Fits pre [t] (ts ++ after) [.identifier (Production.identifier t)] := identifier
  exact first.seq args h hne

theorem typeChoice {t : Type1} (h : Fits pre ts after [.type1 t]) :
    Fits pre ts after [.typeChoice (Production.typeChoice t)] := by
  obtain ⟨s, span, low, high, below⟩ := Fit.inv h (by simp [Node.kind])
  exact .one span low high (.one span (Int.le_refl _) (Int.le_refl _) below)

theorem genericArg {t : Type1} (h : Fits pre ts after [.type1 t]) : Fits pre ts after [.genericArg ⟨t, t.span⟩] := by
  obtain ⟨s, span, low, high, below⟩ := Fit.inv h (by simp [Node.kind])
  exact .one span low high (.one span (Int.le_refl _) (Int.le_refl _) below)

theorem colonKey {t : Type1} {key : MemberKey} (h : Fits pre ts after [.type1 t])
    (made : Production.colonKey? t = some key) : Fits pre ts after [.memberKey key] := by
  obtain ⟨operand, operator, span⟩ := t
  obtain ⟨s, _, low, high, below⟩ := Fit.inv h (by simp [Node.kind])
  unfold Production.colonKey? at made
  split at made
  case h_1 ident s hop harg =>
    cases hop
    cases harg
    cases made
    obtain ⟨_, span, low', high', below⟩ := Fit.inv below (by simp [Node.kind])
    exact .one span (Int.le_trans low low') (Int.le_trans high' high) below
  case h_2 v s hop harg =>
    cases hop
    cases harg
    cases made
    obtain ⟨_, span, low', high', below⟩ := Fit.inv below (by simp [Node.kind])
    exact .one span (Int.le_trans low low') (Int.le_trans high' high) below
  case h_3 => cases made

/-- What stands in parentheses as a key has the stretch of the group that it was read as. -/
theorem enclosed {g : Group} (h : Fits pre ts after [.group g]) :
    Fits pre ts after [.memberKey (.enclosed (Production.enclosedKey g) g.span)] := by
  obtain ⟨s, span, low, high, below⟩ := Fit.inv h (by simp [Node.kind])
  have wrap {k : NonMemberKey} (hk : k.span = g.span)
      (below : Fit s.start.offset (Node.nonMemberKey k).children s.stop.offset) :
      Fits pre ts after [.memberKey (.enclosed k g.span)] :=
    .one span low high (.one (hk.trans span) (Int.le_refl _) (Int.le_refl _) below)
  obtain ⟨choices, gspan⟩ := g
  unfold Production.enclosedKey
  split
  case h_1 type _ _ _ hg =>
    cases hg
    obtain ⟨_, _, low, high, below⟩ := below.inv (by simp [Node.kind])
    obtain ⟨_, _, low', high', below⟩ := below.inv (by simp [Node.kind])
    obtain ⟨_, _, low'', high'', below⟩ := below.inv (by simp [Node.kind])
    exact wrap rfl (below.mono (by omega) (by omega))
  case h_2 name args span _ _ _ hg =>
    cases hg
    obtain ⟨_, _, low, high, below⟩ := below.inv (by simp [Node.kind])
    obtain ⟨_, _, low', high', below⟩ := below.inv (by simp [Node.kind])
    obtain ⟨s, span, low'', high'', below⟩ := below.inv (by simp [Node.kind])
    have same {n : Node} (hn : n.span = some s) (below : Fit s.start.offset n.children s.stop.offset) :
        Fit s.start.offset [n] s.stop.offset := .one hn (Int.le_refl _) (Int.le_refl _) below
    have type : Fit s.start.offset [.type (Production.typeOfName name args _)] s.stop.offset :=
      same span (same span (same span (same span below)))
    exact wrap rfl (type.mono (by omega) (by omega))
  case h_3 => exact wrap rfl (.one span (Int.le_refl _) (Int.le_refl _) below)

end Fits

/-- The stretch from an opening to a closing token. -/
theorem over_between (ts : List Token) : Span.over pre (o :: (ts ++ [c])) after = ⟨o.location, c.stop⟩ := by
  unfold Span.over
  rw [stopAfter, stopAfter_append]
  rfl

theorem SpellsOccurrence.fits {oc : Option Occurrence} (h : SpellsOccurrence oc ts after) :
    Fits pre ts after (Node.ofOccurrence oc) := by
  have place {o : Occurrence} (span : o.span = some (.over pre ts after)) :
      Fits pre ts after (Node.ofOccurrence (.some o)) := .cover span .none
  cases h with
  | none => exact .none
  | optional => exact place rfl
  | oneOrMore => exact place rfl
  | zeroOrMore => exact place rfl
  | upTo => exact place rfl
  | atLeast => exact place rfl
  | fromTo => exact place rfl

/-- Two literals around an operator. -/
theorem Fit.range {l m u stop : Location} {lower upper : Literal} {symbol : RangeOrControl}
    (first : l.offset ≤ m.offset) (second : m.offset ≤ u.offset) (last : u.offset ≤ stop.offset) :
    Fit l.offset [.type1 ⟨.literal lower (some ⟨l, m⟩), some ⟨symbol, .literal upper (some ⟨u, stop⟩), some ⟨m, stop⟩⟩,
      some ⟨l, stop⟩⟩] stop.offset := by
  have operand : Fit m.offset [.type2 (.literal upper (some ⟨u, stop⟩))] stop.offset :=
    .one rfl second (Int.le_refl _) (.value .nil)
  have operator : Fit m.offset [.operator ⟨symbol, .literal upper (some ⟨u, stop⟩), some ⟨m, stop⟩⟩] stop.offset :=
    .one rfl (Int.le_refl _) (Int.le_refl _) operand
  have below : Fit l.offset [.type2 (.literal lower (some ⟨l, m⟩)),
      .operator ⟨symbol, .literal upper (some ⟨u, stop⟩), some ⟨m, stop⟩⟩] stop.offset :=
    .node rfl (Int.le_refl _) (Int.le_trans second last) (.value .nil)
      (operator.mono (Int.max_le.2 ⟨first, Int.le_refl _⟩) (Int.le_refl _))
  exact .one rfl (Int.le_refl _) (Int.le_refl _) below

/-- A range fits in its token, the operator behind the lower bound and the upper bound behind the operator. -/
theorem fits_range {lower upper : Literal} {inclusive : Bool} (body : t.body = .range lower upper inclusive)
    (laid : Laid (t :: after)) :
    Fits pre [t] after [.type1 (Production.rangeType1 t lower upper inclusive t.stop)] := by
  obtain ⟨u, r, more, scanned, text⟩ := (laid.2 t List.mem_cons_self).exists_scan (Token.not_is_of_range body)
  rw [body] at scanned
  obtain ⟨k, hk, pos, inside⟩ := indexOf?_range scanned
  rw [← text] at hk inside
  unfold Production.rangeType1
  rw [hk]
  refine Fit.range ?_ ?_ ?_
  · simp only [Location.shift, Option.getD_some]
    omega
  · simp only [Location.shift, Option.getD_some]
    split <;> omega
  · simp only [Location.shift, Option.getD_some, Token.stop]
    cases inclusive <;> simp only [Bool.false_eq_true, if_true, if_false] at inside ⊢ <;> omega

/-! ## Entries -/

/-- An entry with a key, which takes all tokens up to its type. -/
theorem fits_keyed {oc : Option Occurrence} {key : MemberKey} {ty : TypeExpr} {os ks : List Token}
    (occurrence : SpellsOccurrence oc os (ks ++ (us ++ after)))
    (inner : Fits (stopAfter pre os) ks (us ++ after) [.memberKey key])
    (value : Fits (stopAfter (stopAfter pre os) ks) us after [.type ty])
    (follows : Follows pre (os ++ (ks ++ (us ++ after)))) (hne : after ≠ []) :
    Fits pre (os ++ (ks ++ us)) after [.groupEntry (.keyed
      ⟨oc, some key, ty, some (.over pre (os ++ (ks ++ us)) after)⟩ (some (.over pre (os ++ (ks ++ us)) after)))] := by
  have some : us ++ after ≠ [] := List.append_ne_nil_of_right_ne_nil _ hne
  have parts := inner.seq value (follows.rest (List.append_ne_nil_of_right_ne_nil _ some)) hne
  rw [← List.append_assoc ks] at occurrence follows
  have below := Fits.seq occurrence.fits parts follows hne
  exact .cover rfl (.cover rfl (by simpa [Node.children] using below))

theorem fits_inlineEntry {oc : Option Occurrence} {g : Group} {os : List Token}
    (occurrence : SpellsOccurrence oc os (o :: (ts ++ c :: after)))
    (group : Follows o.stop (ts ++ c :: after) → Fits o.stop ts (c :: after) [.group g])
    (hne : after ≠ []) (follows : Follows pre (os ++ o :: (ts ++ [c]) ++ after)) :
    Fits pre (os ++ o :: (ts ++ [c])) after
      [.groupEntry (.inline oc g (some (.over pre (os ++ o :: (ts ++ [c])) after)))] := by
  have split : o :: (ts ++ c :: after) = o :: (ts ++ [c]) ++ after := by simp
  rw [split] at occurrence
  rw [List.append_assoc] at follows
  have inner := Fits.between (follows.rest (by simp)) hne group
  exact .cover rfl (.seq occurrence.fits inner follows hne)

section
variable {oc : Option Occurrence} {key : MemberKey} {ty : TypeExpr} {t₁ : Type1} {cut : Bool} {os as : List Token}

theorem fits_enclosedEntry {g : Group} (occurrence : SpellsOccurrence oc os (o :: (ts ++ c :: (as ++ (us ++ after)))))
    (group : Follows o.stop (ts ++ c :: (as ++ (us ++ after))) → Fits o.stop ts (c :: (as ++ (us ++ after))) [.group g])
    (type : Follows (stopAfter c.stop as) (us ++ after) → Fits (stopAfter c.stop as) us after [.type ty])
    (hne : after ≠ []) (follows : Follows pre (os ++ o :: (ts ++ c :: (as ++ us)) ++ after)) :
    Fits pre (os ++ o :: (ts ++ c :: (as ++ us))) after [.groupEntry (.keyed
      ⟨oc, some (.enclosed (Production.enclosedKey g) g.span), ty,
        some (.over pre (os ++ o :: (ts ++ c :: (as ++ us))) after)⟩
      (some (.over pre (os ++ o :: (ts ++ c :: (as ++ us))) after)))] := by
  have split : o :: (ts ++ c :: (as ++ us)) = (o :: (ts ++ [c]) ++ as) ++ us := by simp
  have ends : stopAfter (stopAfter pre os) (o :: (ts ++ [c]) ++ as) = stopAfter c.stop as := by
    simp [stopAfter, stopAfter_append]
  have whole : Follows pre (os ++ (o :: (ts ++ [c]) ++ as ++ (us ++ after))) := by simpa using follows
  have behind := whole.rest (by simp)
  have key : Fits (stopAfter pre os) (o :: (ts ++ [c]) ++ as) (us ++ after)
      [.memberKey (.enclosed (Production.enclosedKey g) g.span)] := by
    rw [List.append_assoc (o :: (ts ++ [c]))] at behind
    have brackets := Fits.between behind (by simp [hne]) group
    have arrow : Fits (stopAfter (stopAfter pre os) (o :: (ts ++ [c]))) as (us ++ after) [] := Fits.none
    exact (brackets.seq arrow behind (by simp [hne])).enclosed
  rw [split] at follows ⊢
  rw [← ends] at type
  exact fits_keyed (by simpa using occurrence) key (type (behind.rest (by simp [hne]))) whole hne

theorem fits_colonEntry {k : Token} (occurrence : SpellsOccurrence oc os (ts ++ k :: (us ++ after)))
    (made : Production.colonKey? t₁ = some key)
    (first : Follows (stopAfter pre os) (ts ++ k :: (us ++ after)) →
      Fits (stopAfter pre os) ts (k :: (us ++ after)) [.type1 t₁])
    (type : Follows k.stop (us ++ after) → Fits k.stop us after [.type ty])
    (hne : after ≠ []) (follows : Follows pre (os ++ (ts ++ k :: us) ++ after)) :
    Fits pre (os ++ (ts ++ k :: us)) after [.groupEntry (.keyed
      ⟨oc, some key, ty, some (.over pre (os ++ (ts ++ k :: us)) after)⟩
      (some (.over pre (os ++ (ts ++ k :: us)) after)))] := by
  have split : ts ++ k :: us = ts ++ [k] ++ us := by simp
  have ends : stopAfter (stopAfter pre os) (ts ++ [k]) = k.stop := by rw [stopAfter_append]; rfl
  have whole : Follows pre (os ++ (ts ++ [k] ++ (us ++ after))) := by simpa using follows
  have behind := whole.rest (by simp)
  have behind' : Follows (stopAfter pre os) (ts ++ k :: (us ++ after)) := by simpa using behind
  have key := ((first behind').colonKey made).last behind' (by simp [hne])
  rw [split] at follows ⊢
  rw [← ends] at type
  exact fits_keyed (by simpa using occurrence) key (type (behind.rest (by simp [hne]))) whole hne

theorem fits_arrowEntry (occurrence : SpellsOccurrence oc os (ts ++ (as ++ (us ++ after))))
    (first : Follows (stopAfter pre os) (ts ++ (as ++ (us ++ after))) →
      Fits (stopAfter pre os) ts (as ++ (us ++ after)) [.type1 t₁])
    (type : Follows (stopAfter pre (os ++ (ts ++ as))) (us ++ after) →
      Fits (stopAfter pre (os ++ (ts ++ as))) us after [.type ty])
    (hne : after ≠ []) (follows : Follows pre (os ++ (ts ++ (as ++ us)) ++ after)) :
    Fits pre (os ++ (ts ++ (as ++ us))) after [.groupEntry (.keyed
      ⟨oc, some (.type1 t₁ cut (some (.over (stopAfter pre os) (ts ++ as) (us ++ after)))), ty,
        some (.over pre (os ++ (ts ++ (as ++ us))) after)⟩
      (some (.over pre (os ++ (ts ++ (as ++ us))) after)))] := by
  have split : ts ++ (as ++ us) = ts ++ as ++ us := (List.append_assoc _ _ _).symm
  have whole : Follows pre (os ++ (ts ++ as ++ (us ++ after))) := by simpa using follows
  have behind := whole.rest (by simp [hne])
  have key : Fits (stopAfter pre os) (ts ++ as) (us ++ after) [.memberKey (.type1 t₁ cut
      (some (.over (stopAfter pre os) (ts ++ as) (us ++ after))))] := by
    rw [List.append_assoc] at behind
    have arrow : Fits (stopAfter (stopAfter pre os) ts) as (us ++ after) [] := Fits.none
    exact .cover rfl ((first behind).seq arrow behind (by simp [hne]))
  rw [split] at follows ⊢
  rw [stopAfter_append] at type
  exact fits_keyed (by simpa using occurrence) key (type (behind.rest (by simp [hne]))) whole hne

theorem fits_namedEntry {ident : Identifier} {args : Option GenericArgs} {s s' : Option Span}
    (occurrence : SpellsOccurrence oc os (ts ++ after))
    (first : Follows (stopAfter pre os) (ts ++ after) →
      Fits (stopAfter pre os) ts after [.type1 ⟨.typename ident args s, none, s'⟩])
    (hne : after ≠ []) (follows : Follows pre (os ++ ts ++ after)) :
    Fits pre (os ++ ts) after [.groupEntry (.named ⟨oc, ident, args, some (.over pre (os ++ ts) after)⟩
      (some (.over pre (os ++ ts) after)))] := by
  rw [List.append_assoc] at follows
  obtain ⟨_, _, low, high, below⟩ := Fit.inv (first (follows.rest (by simp [hne]))) (by simp [Node.kind])
  obtain ⟨_, _, low', high', below⟩ := Fit.inv below (by simp [Node.kind])
  have name : Fits (stopAfter pre os) ts after (Node.ofName ident args) :=
    Fit.mono below (Int.le_trans low low') (Int.le_trans high' high)
  exact .cover rfl (.cover rfl (occurrence.fits.seq name follows hne))

theorem fits_keylessEntry {cs : List TypeChoice} (occurrence : SpellsOccurrence oc os (ts ++ (us ++ after)))
    (first : Follows (stopAfter pre os) (ts ++ (us ++ after)) →
      Fits (stopAfter pre os) ts (us ++ after) [.type1 t₁])
    (more : Follows (stopAfter pre (os ++ ts)) (us ++ after) →
      Fits (stopAfter pre (os ++ ts)) us after (cs.map .typeChoice))
    (hne : after ≠ []) (follows : Follows pre (os ++ (ts ++ us) ++ after)) :
    Fits pre (os ++ (ts ++ us)) after [.groupEntry (.keyed
      ⟨oc, none, ⟨Production.typeChoice t₁ :: cs, some (.over (stopAfter pre os) (ts ++ us) after)⟩,
        some (.over pre (os ++ (ts ++ us)) after)⟩
      (some (.over pre (os ++ (ts ++ us)) after)))] := by
  rw [List.append_assoc] at follows
  have behind := follows.rest (by simp [hne])
  rw [List.append_assoc] at behind
  rw [stopAfter_append] at more
  have choices := (first behind).typeChoice.seq (more (behind.rest (by simp [hne]))) behind hne
  have type : Fits (stopAfter pre os) (ts ++ us) after [.type ⟨Production.typeChoice t₁ :: cs,
      some (.over (stopAfter pre os) (ts ++ us) after)⟩] := .cover rfl choices
  rw [← List.append_assoc ts] at occurrence
  have below := occurrence.fits.seq type follows hne
  exact .cover rfl (.cover rfl (by simpa [Node.children] using below))

end

/-! ## All phrases -/

/-- **The nodes of a phrase fit in over its tokens.** -/
theorem fits_of_spells {p : Phrase} (h : Spells p pre ts after) :
    after ≠ [] → Follows pre (ts ++ after) → Fits pre ts after p.nodes := by
  induction h
  all_goals intro hne follows
  case literal => exact .cover rfl (.value .nil)
  case typename ih => exact .cover rfl (.name follows hne (ih hne (follows.tail (by simp [hne]))))
  case parenthesized ih => exact .cover (over_between _ ▸ rfl) (.between follows hne (ih (by simp)))
  case map ih => exact .cover (over_between _ ▸ rfl) (.between follows hne (ih (by simp)))
  case array ih => exact .cover (over_between _ ▸ rfl) (.between follows hne (ih (by simp)))
  case unwrap ih =>
    have tail := follows.tail (by simp)
    exact .cover rfl (.lead follows hne (.name tail hne (ih hne (tail.tail (by simp [hne])))))
  case choiceFromInlineGroup pre x o c _ ts after _ _ _ _ ih =>
    have span : Span.over pre (x :: o :: (ts ++ [c])) after = ⟨x.location, c.stop⟩ := over_between (o :: ts)
    have tail := follows.tail (by simp)
    exact .cover (span ▸ rfl) (.lead follows hne (.between tail hne (ih (by simp))))
  case choiceFromGroup ih =>
    have tail := follows.tail (by simp)
    exact .cover rfl (.lead follows hne (.name tail hne (ih hne (tail.tail (by simp [hne])))))
  case tagged pre x o c _ _ ts after _ _ _ _ ih =>
    have span : Span.over pre (x :: o :: (ts ++ [c])) after = ⟨x.location, c.stop⟩ := over_between (o :: ts)
    have tail := follows.tail (by simp)
    exact .cover (span ▸ rfl) (.lead follows hne (.between tail hne (ih (by simp))))
  case major => exact .cover rfl .none
  case any => exact .cover rfl .none
  case noOperator => exact .none
  case someOperator ih => exact .cover rfl (.lead follows hne (ih hne (follows.tail (by simp [hne]))))
  case range body => exact fits_range body follows.laid
  case operands ih ih' =>
    rw [List.append_assoc] at follows
    exact .cover rfl ((ih (by simp [hne]) follows).seq (ih' hne (follows.rest (by simp [hne]))) follows hne)
  case noChoices => exact .none
  case moreChoices ih ih' =>
    rw [List.cons_append, List.append_assoc] at follows
    have tail := follows.tail (by simp [hne])
    have both := (ih (by simp [hne]) tail).typeChoice.seq (ih' hne (tail.rest (by simp [hne]))) tail hne
    exact .lead (by simpa using follows) hne both
  case type ih ih' =>
    rw [List.append_assoc] at follows
    exact .cover rfl ((ih (by simp [hne]) follows).typeChoice.seq (ih' hne (follows.rest (by simp [hne]))) follows hne)
  case noArgs => exact .none
  case someArgs ih ih' =>
    refine .cover (over_between _ ▸ rfl) (.between follows hne fun inside => ?_)
    rw [List.append_assoc] at inside
    exact (ih (by simp) inside).genericArg.seq (ih' (by simp) (inside.rest (by simp))) inside (by simp)
  case noMoreArgs => exact .none
  case moreArgs ih ih' =>
    rw [List.cons_append, List.append_assoc] at follows
    have tail := follows.tail (by simp [hne])
    have both := (ih (by simp [hne]) tail).genericArg.seq (ih' hne (tail.rest (by simp [hne]))) tail hne
    exact .lead (by simpa using follows) hne both
  case inlineEntry ih => exact fits_inlineEntry ‹_› (ih (by simp)) hne follows
  case enclosedEntry ih ih' =>
    exact fits_enclosedEntry ‹_› (ih (by simp)) (ih' hne) hne follows
  case colonEntry made _ ih ih' => exact fits_colonEntry ‹_› made (ih (by simp)) (ih' hne) hne follows
  case arrowEntry ih ih' => exact fits_arrowEntry ‹_› (ih (by simp [hne])) (ih' hne) hne follows
  case namedEntry ih => exact fits_namedEntry ‹_› (ih hne) hne follows
  case keylessEntry ih ih' => exact fits_keylessEntry ‹_› (ih (by simp [hne])) (ih' hne) hne follows
  case noEntries => exact .none
  case plainEntry ih ih' =>
    rw [List.append_assoc] at follows
    exact (ih (by simp [hne]) follows).seq (ih' hne (follows.rest (by simp [hne]))) follows hne
  case commaEntry ih ih' =>
    rw [List.append_assoc] at follows
    have rest := follows.rest (by simp)
    exact (ih (by simp) follows).seq (.lead rest hne (ih' hne (rest.tail (by simp [hne])))) follows hne
  case groupChoice ih => exact .cover rfl (ih hne follows)
  case noGroupChoices => exact .none
  case moreGroupChoices ih ih' =>
    rw [List.cons_append, List.append_assoc] at follows
    have tail := follows.tail (by simp [hne])
    have both := (ih (by simp [hne]) tail).seq (ih' hne (tail.rest (by simp [hne]))) tail hne
    exact .lead (by simpa using follows) hne both
  case group ih ih' =>
    rw [List.append_assoc] at follows
    exact .cover rfl ((ih (by simp [hne]) follows).seq (ih' hne (follows.rest (by simp [hne]))) follows hne)

end Cddl
