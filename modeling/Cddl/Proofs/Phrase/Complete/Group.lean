import Cddl.Proofs.Phrase.Complete.Type
/-!
# Groups that are spelled are read

One lemma for each rule of `Spells` about entries and groups, and from all of them that every phrase is read from the
tokens that spell it (`given_of_spells`).
-/
namespace Cddl

namespace Production

open Reader

variable {n k : Nat} {w u v : Window} {pre : Location} {t o c : Token} {ts us after : List Token}
  {ty : TypeExpr} {g : Group} {args : Option GenericArgs}

/-! ## Entries -/

variable {oc : Option Occurrence} {os as : List Token} {cut : Bool}

/-- The occurrence that an entry begins with, and what is left for the entry itself. -/
theorem given_occurrence (h : SpellsOccurrence oc os (ts ++ after)) (hw : w.Ends) (hlen : 2 ≤ after.length)
    (hs : w.Steps (os ++ ts) v) (hv : v.Shows after) :
    ∃ u, occurrence?.Gives w oc u ∧ u.Steps ts v ∧ u.lastStop = stopAfter w.lastStop os ∧ u.Ends ∧ u.size ≤ w.size := by
  obtain ⟨u, first, second⟩ := hs.split
  have size := first.size hw h.unended
  exact ⟨u, gives_occurrence h first (two_le_append hlen) (second.shows hv), second, first.lastStop, first.ends hw,
    by omega⟩

theorem completes_inlineEntry (occurrence : SpellsOccurrence oc os (o :: (ts ++ c :: after)))
    (opening : o.is .leftParen = true) (inner : Completes (.group g) o.stop ts (c :: after))
    (closing : c.is .rightParen = true)
    (free : nextIs .arrow after = false ∧ nextIs .cut after = false) :
    Completes (.entry (.inline oc g (some (.over pre (os ++ o :: (ts ++ [c])) after)))) pre (os ++ o :: (ts ++ [c]))
      after := by
  rintro n w v rfl hw hsize hlen hs hv
  have hne := ne_nil_of_two hlen
  rw [Span.over_of_steps hs hne hv]
  obtain ⟨u, hoc, walk, _, hu, small⟩ := given_occurrence (by simpa using occurrence) hw hlen hs hv
  obtain ⟨m, x, y, rfl, rfl, move, group, rfl, last⟩ :=
    given_enclosed inner hu (show u.size ≤ n by omega) hlen (not_end_of_is opening (by decide)) walk hv
  rw [nextIs_of_shows hne hv, nextIs_of_shows hne hv] at free
  have apart : ¬ (v.current.is .arrow || v.current.is .cut) = true := by
    rw [free.1, free.2]
    exact Bool.false_ne_true
  simp only [Given, groupEntry, parenthesizedEntry, gives_bind, gives_current, gives_at?, gives_ite, gives_advance,
    gives_spanFrom, gives_pure, and_assoc, exists_and_left, exists_eq_left']
  exact ⟨oc, u, hoc, .inl ⟨opening, _, x, move, g, v, gives_closedBy.2 ⟨y, group, closing, last⟩,
    .inr ⟨apart, rfl, rfl⟩⟩⟩

theorem completes_enclosedEntry (occurrence : SpellsOccurrence oc os (o :: (ts ++ c :: (as ++ (us ++ after)))))
    (opening : o.is .leftParen = true) (inner : Completes (.group g) o.stop ts (c :: (as ++ (us ++ after))))
    (spelled : Unended ts) (closing : c.is .rightParen = true) (arrow : SpellsArrow cut as)
    (type : Completes (.type ty) (stopAfter c.stop as) us after) :
    Completes (.entry (.keyed
      ⟨oc, some (.enclosed (enclosedKey g) g.span), ty, some (.over pre (os ++ o :: (ts ++ c :: (as ++ us))) after)⟩
      (some (.over pre (os ++ o :: (ts ++ c :: (as ++ us))) after))))
      pre (os ++ o :: (ts ++ c :: (as ++ us))) after := by
  rintro n w v rfl hw hsize hlen hs hv
  rw [Span.over_of_steps hs (ne_nil_of_two hlen) hv]
  obtain ⟨u, hoc, walk, _, hu, small⟩ := given_occurrence (by simpa using occurrence) hw hlen hs hv
  have split : o :: (ts ++ c :: (as ++ us)) = (o :: (ts ++ [c])) ++ (as ++ us) := by simp
  rw [split] at walk
  obtain ⟨x, first, rest⟩ := walk.split
  obtain ⟨y, second, third⟩ := rest.split
  have closed := first.size hu (by simp [not_end_of_is opening, not_end_of_is closing, spelled])
  have hx := first.ends hu
  have pointed := second.size hx arrow.unended
  have showsX : x.Shows (as ++ (us ++ after)) := by simpa using rest.shows hv
  obtain ⟨m, p, q, rfl, rfl, move, group, rfl, last⟩ := given_enclosed inner hu (show u.size ≤ n by omega)
    (two_le_append (two_le_append hlen)) (not_end_of_is opening (by decide)) first showsX
  have hty := type (m + 1) y v (by rw [second.lastStop, Window.lastStop_of_advance last]) (second.ends hx)
    (by omega) hlen third hv
  have pointing : (x.current.is .arrow || x.current.is .cut) = true := by
    cases arrow with
    | plain is => rw [second.head, is]; rfl
    | cut is _ => rw [second.head, is, Bool.or_true]
  simp only [Given, groupEntry, parenthesizedEntry, gives_bind, gives_current, gives_at?, gives_ite, gives_advance,
    gives_spanFrom, gives_pure, gives_keyedEntry, and_assoc, exists_and_left, exists_eq_left']
  exact ⟨oc, u, hoc, .inl ⟨opening, _, p, move, g, x, gives_closedBy.2 ⟨q, group, closing, last⟩,
    .inl ⟨pointing, cut, y, gives_arrow arrow second, ty, v, hty, rfl, rfl⟩⟩⟩

theorem not_leftParen (hs : w.Steps ts v) (hne : ts ≠ []) (start : nextIs .leftParen ts = false) :
    ¬ w.current.is .leftParen = true := by
  rw [← nextIs_of_steps hs hne, start]
  exact Bool.false_ne_true

theorem completes_colonEntry {t : Type1} {key : MemberKey}
    (occurrence : SpellsOccurrence oc os (ts ++ c :: (us ++ after)))
    (spelled : Spells (.type1 t) (stopAfter pre os) ts (c :: (us ++ after)))
    (first : Completes (.type1 t) (stopAfter pre os) ts (c :: (us ++ after))) (start : nextIs .leftParen ts = false)
    (mark : c.is .colon = true) (made : colonKey? t = some key) (type : Completes (.type ty) c.stop us after) :
    Completes (.entry (.keyed ⟨oc, some key, ty, some (.over pre (os ++ (ts ++ c :: us)) after)⟩
      (some (.over pre (os ++ (ts ++ c :: us)) after)))) pre (os ++ (ts ++ c :: us)) after := by
  rintro n w v rfl hw hsize hlen hs hv
  rw [Span.over_of_steps hs (ne_nil_of_two hlen) hv]
  obtain ⟨u, hoc, walk, stop, hu, small⟩ := given_occurrence (by simpa using occurrence) hw hlen hs hv
  have whole : Completes (.type1 t) (stopAfter w.lastStop os) ts ((c :: us) ++ after) := first
  obtain ⟨x, walk', rest, ht, _, hx, size⟩ :=
    whole.split spelled.unended stop hu (show u.size ≤ n by omega) hlen walk hv
  obtain rfl := rest.head
  obtain ⟨y, move, stop', third⟩ := rest.tail
  have moved := Window.size_of_advance hx move (not_end_of_is mark (by decide))
  have hty := type n y v stop' (hx.advance move) (by omega) hlen third hv
  have hkey : (colonKey t).Gives x key x := by
    unfold colonKey
    rw [made]
    exact gives_pure.2 ⟨rfl, rfl⟩
  simp only [Given, groupEntry, typeEntry, gives_bind, gives_current, gives_at?, gives_ite, gives_advance,
    gives_spanFrom, gives_keyedEntry, and_assoc, exists_and_left, exists_eq_left']
  exact ⟨oc, u, hoc, .inr ⟨not_leftParen walk' (spelled.ne_nil rfl) start, t, x, ht,
    .inl ⟨mark, key, x, hkey, _, y, move, ty, v, hty, rfl, rfl⟩⟩⟩

theorem completes_arrowEntry {t : Type1} (occurrence : SpellsOccurrence oc os (ts ++ (as ++ (us ++ after))))
    (spelled : Spells (.type1 t) (stopAfter pre os) ts (as ++ (us ++ after)))
    (first : Completes (.type1 t) (stopAfter pre os) ts (as ++ (us ++ after))) (start : nextIs .leftParen ts = false)
    (arrow : SpellsArrow cut as) (type : Completes (.type ty) (stopAfter pre (os ++ (ts ++ as))) us after) :
    Completes (.entry (.keyed
      ⟨oc, some (.type1 t cut (some (.over (stopAfter pre os) (ts ++ as) (us ++ after)))), ty,
        some (.over pre (os ++ (ts ++ (as ++ us))) after)⟩
      (some (.over pre (os ++ (ts ++ (as ++ us))) after)))) pre (os ++ (ts ++ (as ++ us))) after := by
  rintro n w v rfl hw hsize hlen hs hv
  have hne := ne_nil_of_two hlen
  rw [Span.over_of_steps hs hne hv]
  obtain ⟨u, hoc, walk, stop, hu, small⟩ := given_occurrence (by simpa using occurrence) hw hlen hs hv
  have whole : Completes (.type1 t) (stopAfter w.lastStop os) ts ((as ++ us) ++ after) := by simpa using first
  obtain ⟨x, walk', rest, ht, stop', hx, size⟩ :=
    whole.split spelled.unended stop hu (show u.size ≤ n by omega) hlen walk hv
  obtain ⟨y, second, third⟩ := rest.split
  have pointed := second.size hx arrow.unended
  have hty := type n y v (by rw [second.lastStop, stop', stopAfter_append, stopAfter_append]) (second.ends hx)
    (by omega) hlen third hv
  have key : (t.span.map Span.start).getD w.current.location = u.current.location := by
    rw [← stop] at spelled
    exact spelled.start_of_type1 (by simp [hne]) walk' (by simpa using rest.shows hv) _
  have inner : Span.over (stopAfter w.lastStop os) (ts ++ as) (us ++ after) = ⟨u.current.location, y.lastStop⟩ := by
    rw [← stop]
    exact Span.over_of_steps (walk'.trans second) (by simp [hne]) (third.shows hv)
  have pointing : x.current.is .colon = false ∧ (x.current.is .arrow || x.current.is .cut) = true := by
    cases arrow with
    | plain is => rw [second.head, is]; exact ⟨Token.not_is is (by decide), rfl⟩
    | cut is _ => rw [second.head, is, Bool.or_true]; exact ⟨Token.not_is is (by decide), rfl⟩
  simp only [Given, groupEntry, typeEntry, gives_bind, gives_current, gives_at?, gives_ite, gives_spanFrom,
    gives_keyedEntry, and_assoc, exists_and_left, exists_eq_left', inner]
  exact ⟨oc, u, hoc, .inr ⟨not_leftParen walk' (spelled.ne_nil rfl) start, t, x, ht, .inr ⟨by simp [pointing.1], .inl
    ⟨pointing.2, cut, y, gives_arrow arrow second, ty, v, hty, by rw [key], rfl⟩⟩⟩⟩

/-- A type that no mark of a key follows is no key. -/
theorem keyless_of_shows (hne : after ≠ []) (hv : v.Shows after) (free : nextIsKeyEnd after = false) :
    ¬ v.current.is .colon = true ∧ ¬ (v.current.is .arrow || v.current.is .cut) = true := by
  unfold nextIsKeyEnd at free
  rw [nextIs_of_shows hne hv, nextIs_of_shows hne hv, nextIs_of_shows hne hv, Bool.or_eq_false_iff,
    Bool.or_eq_false_iff] at free
  rw [free.1.1, free.1.2, free.2]
  exact ⟨Bool.false_ne_true, Bool.false_ne_true⟩

/-- A name is no parenthesis. -/
theorem nextIs_leftParen_of_typename {ident : Identifier} {s s' : Option Span}
    (h : Spells (.type1 ⟨.typename ident args s, none, s'⟩) pre ts after) : nextIs .leftParen ts = false := by
  generalize hp : Phrase.type1 ⟨.typename ident args s, none, s'⟩ = p at h
  cases h
  case range => cases hp
  case operands operand operator =>
    cases hp
    cases operator
    cases operand with
    | typename name _ => exact Token.not_is name (by decide)
  all_goals cases hp

theorem completes_namedEntry {ident : Identifier} {s s' : Option Span}
    (occurrence : SpellsOccurrence oc os (ts ++ after))
    (spelled : Spells (.type1 ⟨.typename ident args s, none, s'⟩) (stopAfter pre os) ts after)
    (first : Completes (.type1 ⟨.typename ident args s, none, s'⟩) (stopAfter pre os) ts after)
    (free : nextIsKeyEnd after = false) (sole : nextIs .typeChoice after = false) :
    Completes (.entry (.named ⟨oc, ident, args, some (.over pre (os ++ ts) after)⟩ (some (.over pre (os ++ ts) after))))
      pre (os ++ ts) after := by
  rintro n w v rfl hw hsize hlen hs hv
  have hne := ne_nil_of_two hlen
  rw [Span.over_of_steps hs hne hv]
  obtain ⟨u, hoc, walk, stop, hu, small⟩ := given_occurrence occurrence hw hlen hs hv
  have ht := first n u v stop hu (by omega) hlen walk hv
  obtain ⟨noColon, noArrow⟩ := keyless_of_shows hne hv free
  rw [nextIs_of_shows hne hv] at sole
  have hkeyless : (keylessEntry (nested n) w.current.location oc ⟨.typename ident args s, none, s'⟩).Gives v
      (.named ⟨oc, ident, args, some ⟨w.current.location, v.lastStop⟩⟩ (some ⟨w.current.location, v.lastStop⟩)) v := by
    simp only [keylessEntry, gives_bind, gives_at?, and_assoc, exists_and_left, exists_eq_left', sole, gives_spanFrom,
      gives_pure, and_self]
  simp only [Given, groupEntry, typeEntry, gives_bind, gives_current, gives_at?, gives_ite, and_assoc, exists_and_left,
    exists_eq_left']
  exact ⟨oc, u, hoc, .inr ⟨not_leftParen walk (spelled.ne_nil rfl) (nextIs_leftParen_of_typename spelled), _, v, ht,
    .inr ⟨noColon, .inr ⟨noArrow, hkeyless⟩⟩⟩⟩

theorem completes_keylessEntry {t : Type1} {cs : List TypeChoice}
    (occurrence : SpellsOccurrence oc os (ts ++ (us ++ after)))
    (spelled : Spells (.type1 t) (stopAfter pre os) ts (us ++ after))
    (first : Completes (.type1 t) (stopAfter pre os) ts (us ++ after)) (start : nextIs .leftParen ts = false)
    (free : nextIsKeyEnd (us ++ after) = false)
    (typed : ∀ ident a s s', t = ⟨.typename ident a s, none, s'⟩ → nextIs .typeChoice (us ++ after) = true)
    (more : Completes (.choices cs) (stopAfter pre (os ++ ts)) us after) :
    Completes (.entry (.keyed
      ⟨oc, none, ⟨typeChoice t :: cs, some (.over (stopAfter pre os) (ts ++ us) after)⟩,
        some (.over pre (os ++ (ts ++ us)) after)⟩
      (some (.over pre (os ++ (ts ++ us)) after)))) pre (os ++ (ts ++ us)) after := by
  rintro n w v rfl hw hsize hlen hs hv
  have hne := ne_nil_of_two hlen
  have hne' : us ++ after ≠ [] := List.append_ne_nil_of_right_ne_nil _ hne
  rw [Span.over_of_steps hs hne hv]
  obtain ⟨u, hoc, walk, stop, hu, small⟩ := given_occurrence (by simpa using occurrence) hw hlen hs hv
  obtain ⟨x, walk', rest, ht, stop', hx, size⟩ :=
    first.split spelled.unended stop hu (show u.size ≤ n by omega) hlen walk hv
  have hcs := more n x v (by rw [stop', stopAfter_append]) hx (by omega) hlen rest hv x.size (Nat.le_refl _)
  have showsX := rest.shows hv
  obtain ⟨noColon, noArrow⟩ := keyless_of_shows hne' showsX free
  have key : (t.span.map Span.start).getD w.current.location = u.current.location := by
    rw [← stop] at spelled
    exact spelled.start_of_type1 hne' walk' showsX _
  have inner : Span.over (stopAfter w.lastStop os) (ts ++ us) after = ⟨u.current.location, v.lastStop⟩ := by
    rw [← stop]
    exact Span.over_of_steps walk hne hv
  have hkeyless : (keylessEntry (nested n) w.current.location oc t).Gives x (.keyed
      ⟨oc, none, ⟨typeChoice t :: cs, some ⟨u.current.location, v.lastStop⟩⟩, some ⟨w.current.location, v.lastStop⟩⟩
      (some ⟨w.current.location, v.lastStop⟩)) v := by
    unfold keylessEntry
    refine gives_bind.2 ⟨_, x, gives_at?.2 ⟨rfl, rfl⟩, ?_⟩
    split
    · rename_i ident a s hoperand hoperator hsole
      obtain ⟨operand, operator, span⟩ := t
      subst hoperand hoperator
      rw [← nextIs_of_shows hne' showsX, typed ident a s span rfl] at hsole
      cases hsole
    · simp only [moreChoices, gives_bind, gives_manyWhile, gives_spanFrom, gives_keyedEntry, and_assoc, exists_and_left,
        exists_eq_left', key]
      exact ⟨cs, v, hcs, rfl, rfl⟩
  rw [inner]
  simp only [Given, groupEntry, typeEntry, gives_bind, gives_current, gives_at?, gives_ite, and_assoc, exists_and_left,
    exists_eq_left']
  exact ⟨oc, u, hoc, .inr ⟨not_leftParen walk' (spelled.ne_nil rfl) start, t, x, ht, .inr ⟨noColon, .inr ⟨noArrow,
    hkeyless⟩⟩⟩⟩

/-! ## Groups -/

variable {e : GroupEntry} {es : List ListedEntry}

theorem completes_noEntries (free : nextEndsChoice after = true) : Completes (.entries []) pre [] after := by
  rintro n w v rfl _ _ hlen hs hv k _
  cases hs
  refine gives_atMostWhile_nil ?_ k
  rw [← nextEndsChoice_of_shows (ne_nil_of_two hlen) hv, free]
  rfl

/-- A turn of the loop over entries. -/
theorem given_entry (spelled : Spells (.entry e) pre ts (us ++ after))
    (first : Completes (.entry e) pre ts (us ++ after))
    (hpre : w.lastStop = pre) (hw : w.Ends) (hsize : w.size ≤ n) (hk : w.size ≤ k) (hlen : 2 ≤ after.length)
    (hs : w.Steps (ts ++ us) v) (hv : v.Shows after) :
    ∃ k' u, k = k' + 1 ∧ (!endsChoice w.current) = true ∧ (groupEntry (nested n)).Gives w e u ∧
      u.lastStop = stopAfter pre ts ∧ u.Ends ∧ u.size ≤ k' ∧ u.size ≤ n ∧ u.Steps us v := by
  obtain ⟨u, walk, rest, given, stop, hu, small⟩ := first.split spelled.unended hpre hw hsize hlen hs hv
  have hne := spelled.ne_nil rfl
  have pos := List.length_pos_iff.2 hne
  obtain ⟨k', rfl⟩ : ∃ k', k = k' + 1 := ⟨k - 1, by omega⟩
  have begins : (!endsChoice w.current) = true := by
    obtain ⟨t, ts, rfl⟩ := List.exists_cons_of_ne_nil hne
    have head : endsChoice t = false := spelled.not_endsChoice rfl
    rw [walk.head, head]
    rfl
  exact ⟨k', u, rfl, begins, given, stop, hu, by omega, by omega, rest⟩

theorem completes_plainEntry (spelled : Spells (.entry e) pre ts (us ++ after))
    (first : Completes (.entry e) pre ts (us ++ after)) (free : nextIs .comma (us ++ after) = false)
    (more : Completes (.entries es) (stopAfter pre ts) us after) :
    Completes (.entries (⟨e, false⟩ :: es)) pre (ts ++ us) after := by
  rintro n w v rfl hw hsize hlen hs hv k hk
  obtain ⟨k, u, rfl, begins, entry, stop, hu, small, size, rest⟩ := given_entry spelled first rfl hw hsize hk hlen hs hv
  have hne' : us ++ after ≠ [] := List.append_ne_nil_of_right_ne_nil _ (ne_nil_of_two hlen)
  have noComma := (nextIs_of_shows hne' (rest.shows hv)).symm.trans free
  refine gives_atMostWhile_cons begins ?_ (more n u v stop hu size hlen rest hv k small)
  simp only [listedEntry, gives_bind, gives_at?]
  refine ⟨e, u, entry, _, u, ⟨noComma, rfl⟩, ?_⟩
  simp only [Bool.false_eq_true, if_false, gives_pure, and_self]

theorem completes_commaEntry (spelled : Spells (.entry e) pre ts (c :: (us ++ after)))
    (first : Completes (.entry e) pre ts (c :: (us ++ after))) (mark : c.is .comma = true)
    (more : Completes (.entries es) c.stop us after) :
    Completes (.entries (⟨e, true⟩ :: es)) pre (ts ++ c :: us) after := by
  rintro n w v rfl hw hsize hlen hs hv k hk
  have whole : Completes (.entry e) w.lastStop ts ((c :: us) ++ after) := first
  obtain ⟨k, u, rfl, begins, entry, _, hu, small, size, rest⟩ := given_entry spelled whole rfl hw hsize hk hlen hs hv
  obtain rfl := rest.head
  obtain ⟨x, move, stop, rest⟩ := rest.tail
  have smaller := Window.size_of_advance hu move (not_end_of_is mark (by decide))
  refine gives_atMostWhile_cons begins ?_ (more n x v stop (hu.advance move) (by omega) hlen rest hv k (by omega))
  simp only [listedEntry, gives_bind, gives_at?]
  refine ⟨e, u, entry, _, u, ⟨mark, rfl⟩, ?_⟩
  simp only [if_true, gives_bind, gives_advance, gives_pure]
  exact ⟨_, x, move, trivial, rfl⟩

theorem completes_groupChoice (inner : Completes (.entries es) pre ts after) :
    Completes (.groupChoice ⟨es, some (.over pre ts after)⟩) pre ts after := by
  rintro n w v rfl hw hsize hlen hs hv
  rw [Span.over_of_steps hs (ne_nil_of_two hlen) hv]
  have hes := inner n w v rfl hw hsize hlen hs hv w.size (Nat.le_refl _)
  simp only [Given, groupChoice, gives_bind, gives_current, gives_manyWhile, gives_spanFrom, gives_pure, and_assoc,
    exists_and_left, exists_eq_left']
  exact ⟨es, v, hes, rfl, rfl⟩

theorem completes_noGroupChoices (free : nextIs .groupChoice after = false) :
    Completes (.groupChoices []) pre [] after := by
  rintro n w v rfl _ _ hlen hs hv k _
  cases hs
  exact gives_atMostWhile_nil ((nextIs_of_shows (ne_nil_of_two hlen) hv).symm.trans free) k

theorem completes_moreGroupChoices {s : Token} {d : GroupChoice} {cs : List GroupChoice}
    (mark : s.is .groupChoice = true) (spelled : Spells (.groupChoice d) s.stop ts (us ++ after))
    (first : Completes (.groupChoice d) s.stop ts (us ++ after))
    (more : Completes (.groupChoices cs) (stopAfter s.stop ts) us after) :
    Completes (.groupChoices (d :: cs)) pre (s :: (ts ++ us)) after := by
  rintro n w v rfl hw hsize hlen hs hv k hk
  obtain ⟨k, x, u, rfl, is, move, item, stop, hu, small, _, size, walk⟩ :=
    given_turn mark (by decide) first spelled.unended hw hsize hk hlen hs hv
  refine gives_atMostWhile_cons is ?_ (more n u v stop hu (by omega) hlen walk hv k small)
  simp only [gives_bind, gives_advance]
  exact ⟨_, x, move, item⟩

theorem completes_group {d : GroupChoice} {cs : List GroupChoice}
    (spelled : Spells (.groupChoice d) pre ts (us ++ after)) (first : Completes (.groupChoice d) pre ts (us ++ after))
    (more : Completes (.groupChoices cs) (stopAfter pre ts) us after) :
    Completes (.group ⟨d :: cs, some (.over pre (ts ++ us) after)⟩) pre (ts ++ us) after := by
  rintro n w v rfl hw hsize hlen hs hv
  rw [Span.over_of_steps hs (ne_nil_of_two hlen) hv]
  obtain ⟨u, _, walk, hd, stop, hu, small⟩ := first.split spelled.unended rfl hw hsize hlen hs hv
  have hcs := more n u v stop hu (by omega) hlen walk hv u.size (Nat.le_refl _)
  simp only [Given, group, gives_bind, gives_current, gives_manyWhile, gives_spanFrom, gives_pure, and_assoc,
    exists_and_left, exists_eq_left']
  exact ⟨d, u, hd, cs, v, hcs, rfl, rfl⟩

/-- **Every phrase is read from the tokens that spell it.** -/
theorem given_of_spells {p : Phrase} (h : Spells p pre ts after) : Completes p pre ts after := by
  induction h with
  | literal body => exact completes_literal body
  | typename name _ ih => exact completes_typename name ih
  | parenthesized opening _ closing ih => exact completes_parenthesized opening ih closing
  | map opening _ closing ih => exact completes_map opening ih closing
  | array opening _ closing ih => exact completes_array opening ih closing
  | unwrap opening name _ ih => exact completes_unwrap opening name ih
  | choiceFromInlineGroup mark opening _ closing ih => exact completes_choiceFromInlineGroup mark opening ih closing
  | choiceFromGroup mark name _ ih => exact completes_choiceFromGroup mark name ih
  | tagged body opening _ closing ih => exact completes_tagged body opening ih closing
  | major body bound free => exact completes_major body bound free
  | any mark => exact completes_any mark
  | noOperator free => exact completes_noOperator free
  | someOperator mark _ ih => exact completes_someOperator mark ih
  | range body => exact completes_range body
  | operands operand _ ih ih' => exact completes_operands operand ih ih'
  | noChoices free => exact completes_noChoices free
  | moreChoices mark first _ ih ih' => exact completes_moreChoices mark first ih ih'
  | type first _ ih ih' => exact completes_type first ih ih'
  | noArgs free => exact completes_noArgs free
  | someArgs opening first _ closing ih ih' => exact completes_someArgs opening first ih ih' closing
  | noMoreArgs free => exact completes_noMoreArgs free
  | moreArgs mark first _ ih ih' => exact completes_moreArgs mark first ih ih'
  | inlineEntry occurrence opening _ closing free ih => exact completes_inlineEntry occurrence opening ih closing free
  | enclosedEntry occurrence opening group closing arrow _ ih ih' =>
    exact completes_enclosedEntry occurrence opening ih group.unended closing arrow ih'
  | colonEntry occurrence first start mark made _ ih ih' =>
    exact completes_colonEntry occurrence first ih start mark made ih'
  | arrowEntry occurrence first start arrow _ ih ih' => exact completes_arrowEntry occurrence first ih start arrow ih'
  | namedEntry occurrence first free sole ih => exact completes_namedEntry occurrence first ih free sole
  | keylessEntry occurrence first start free typed _ ih ih' =>
    exact completes_keylessEntry occurrence first ih start free typed ih'
  | noEntries free => exact completes_noEntries free
  | plainEntry entry free _ ih ih' => exact completes_plainEntry entry ih free ih'
  | commaEntry entry mark _ ih ih' => exact completes_commaEntry entry ih mark ih'
  | groupChoice _ ih => exact completes_groupChoice ih
  | noGroupChoices free => exact completes_noGroupChoices free
  | moreGroupChoices mark first _ ih ih' => exact completes_moreGroupChoices mark first ih ih'
  | group first _ ih ih' => exact completes_group first ih ih'

end Production
end Cddl
