import Cddl.Proofs.Loosened
/-!
# Entries with ranges taken apart

A range may stand anywhere in an entry, and an entry is told by its first tokens and by what stands behind its first
type. Neither changes, since a range is never taken for an occurrence and a type that begins with one never for a name.
-/
namespace Cddl

open Production

variable {m : Mark} {t u c o k : Token} {oc : Option Occurrence} {cut : Bool}
  {os as ts ts' us us' all after rest : List Token} {g : Group} {ty : TypeExpr} {t₁ : Type1} {cs : List TypeChoice}
  {key : MemberKey} {s s' s'' : Option Span}

/-! ## Occurrences and arrows -/

theorem SpellsOccurrence.survives (h : SpellsOccurrence oc os rest) (loose : Loosened (os ++ rest) all) :
    ∃ os' rest', all = os' ++ rest' ∧ Loosened rest rest' ∧
      ∃ oc', oc'.map Occurrence.erase = oc.map Occurrence.erase ∧ SpellsOccurrence oc' os' rest' := by
  have free {t t' : Token} {rest rest' : List Token} (kept : t.Kept t' rest rest') (mark : t.is .asterisk = true)
      (free : beginsJoined t.stop rest = false) : beginsJoined t'.stop rest' = false := by
    rw [beginsJoined_eq] at free ⊢
    rw [kept.bound mark, free]
  have joined {t t' u u' : Token} {rest rest' : List Token} {n : Int} (kept : t.Kept t' (u :: rest) (u' :: rest'))
      (mark : t.is .asterisk = true) (upper : uintAt? t.stop u = some n) : uintAt? t'.stop u' = some n :=
    (kept.bound mark).trans upper
  cases h with
  | none none => exact ⟨[], all, rfl, loose, Option.none, rfl, .none (loose.respelled.not_beginsOccurrence none)⟩
  | optional mark =>
    obtain ⟨t', rest', rfl, mark', _, more⟩ := loose.exists_mark mark
    refine ⟨[t'], rest', rfl, more, _, ?_, .optional mark'⟩
    rfl
  | oneOrMore mark =>
    obtain ⟨t', rest', rfl, mark', _, more⟩ := loose.exists_mark mark
    refine ⟨[t'], rest', rfl, more, _, ?_, .oneOrMore mark'⟩
    rfl
  | zeroOrMore mark unjoined =>
    obtain ⟨t', rest', rfl, mark', kept, more⟩ := loose.exists_mark mark
    refine ⟨[t'], rest', rfl, more, _, ?_, .zeroOrMore mark' (free kept mark unjoined)⟩
    rfl
  | upTo mark upper =>
    obtain ⟨t', rest', rfl, mark', kept, more⟩ := loose.exists_mark mark
    obtain ⟨u', rest', rfl, _, _, more⟩ := more.exists_value (body_of_uintAt? upper).1
    refine ⟨[t', u'], rest', rfl, more, _, ?_, .upTo mark' (joined kept mark upper)⟩
    rfl
  | atLeast lower mark unjoined =>
    obtain ⟨l', rest', rfl, lower', _, more⟩ := loose.exists_value lower
    obtain ⟨t', rest', rfl, mark', kept, more⟩ := more.exists_mark mark
    refine ⟨[l', t'], rest', rfl, more, _, ?_, .atLeast lower' mark' (free kept mark unjoined)⟩
    rfl
  | fromTo lower mark upper =>
    obtain ⟨l', rest', rfl, lower', _, more⟩ := loose.exists_value lower
    obtain ⟨t', rest', rfl, mark', kept, more⟩ := more.exists_mark mark
    obtain ⟨u', rest', rfl, _, _, more⟩ := more.exists_value (body_of_uintAt? upper).1
    refine ⟨[l', t', u'], rest', rfl, more, _, ?_, .fromTo lower' mark' (joined kept mark upper)⟩
    rfl

theorem SpellsArrow.survives (h : SpellsArrow cut as) (loose : Loosened (as ++ rest) all) :
    ∃ as' rest', all = as' ++ rest' ∧ Loosened rest rest' ∧ SpellsArrow cut as' := by
  cases h with
  | plain arrow =>
    obtain ⟨a', rest', rfl, arrow', _, more⟩ := loose.exists_mark arrow
    exact ⟨[a'], rest', rfl, more, .plain arrow'⟩
  | cut mark arrow =>
    obtain ⟨c', rest', rfl, mark', _, more⟩ := loose.exists_mark mark
    obtain ⟨a', rest', rfl, arrow', _, more⟩ := more.exists_mark arrow
    exact ⟨[c', a'], rest', rfl, more, .cut mark' arrow'⟩

/-- What a type does not begin with it does not begin with when it is loosened. -/
theorem Loosened.not_next_append (h : Loosened (ts ++ us) (ts' ++ us')) (hts : ts ≠ []) (hts' : ts' ≠ [])
    (hm : m ≠ .rightParen ∧ m ≠ .arrow) (free : nextIs m ts = false) : nextIs m ts' = false := by
  have whole : nextIs m (ts ++ us) = false := (nextIs_append hts).trans free
  rw [← nextIs_append hts']
  exact h.respelled.not_next hm whole

/-! ## Entries -/

theorem survives_inlineEntry (occurrence : SpellsOccurrence oc os (o :: (ts ++ c :: after)))
    (opening : o.is .leftParen = true) (inner : (Phrase.group g).Survives ts (c :: after))
    (closing : c.is .rightParen = true) (free : nextIs .arrow after = false ∧ nextIs .cut after = false) :
    (Phrase.entry (.inline oc g s)).Survives (os ++ o :: (ts ++ [c])) after := by
  intro all loose
  have split : os ++ o :: (ts ++ [c]) ++ after = os ++ o :: (ts ++ c :: after) := by simp
  rw [split] at loose
  obtain ⟨os', rest', rfl, loose, oc', hoc, occurrence'⟩ := occurrence.survives loose
  obtain ⟨o', ts', c', after', rfl, opening', closing', behind, inner'⟩ := inner.enclosed opening closing loose
  refine ⟨os' ++ o' :: (ts' ++ [c']), after', by simp, behind, fun _ => ?_⟩
  obtain ⟨g', hg, group⟩ := inner' o'.stop
  refine ⟨_, ?_, .inlineEntry occurrence' opening' group closing' ⟨?_, ?_⟩⟩
  · simp only [GroupEntry.erase, hoc, hg]
  · exact behind.respelled.not_next_arrow free.1 free.2
  · exact behind.respelled.not_next (by decide) free.2

theorem survives_enclosedEntry (occurrence : SpellsOccurrence oc os (o :: (ts ++ c :: (as ++ (us ++ after)))))
    (opening : o.is .leftParen = true) (inner : (Phrase.group g).Survives ts (c :: (as ++ (us ++ after))))
    (closing : c.is .rightParen = true) (arrow : SpellsArrow cut as) (value : (Phrase.type ty).Survives us after) :
    (Phrase.entry (.keyed ⟨oc, some (.enclosed (enclosedKey g) s''), ty, s⟩ s')).Survives
      (os ++ o :: (ts ++ c :: (as ++ us))) after := by
  intro all loose
  have split : os ++ o :: (ts ++ c :: (as ++ us)) ++ after = os ++ o :: (ts ++ c :: (as ++ (us ++ after))) := by simp
  rw [split] at loose
  obtain ⟨os', rest', rfl, loose, oc', hoc, occurrence'⟩ := occurrence.survives loose
  obtain ⟨o', ts', c', rest', rfl, opening', closing', loose, inner'⟩ := inner.enclosed opening closing loose
  obtain ⟨as', rest', rfl, loose, arrow'⟩ := arrow.survives loose
  obtain ⟨us', after', rfl, behind, value'⟩ := value _ loose
  refine ⟨os' ++ o' :: (ts' ++ c' :: (as' ++ us')), after', by simp, behind, fun _ => ?_⟩
  obtain ⟨g', hg, group⟩ := inner' o'.stop
  obtain ⟨ty', hty, type⟩ := value' (stopAfter c'.stop as')
  have hkey : (enclosedKey g').erase = (enclosedKey g).erase := by rw [erase_enclosedKey, hg, ← erase_enclosedKey]
  refine ⟨_, ?_, .enclosedEntry occurrence' opening' group closing' arrow' type⟩
  simp only [GroupEntry.erase, KeyedEntry.erase, eraseKey, MemberKey.erase, hoc, hkey, hty]

theorem survives_colonEntry (occurrence : SpellsOccurrence oc os (ts ++ k :: (us ++ after)))
    (first : (Phrase.type1 t₁).Survives ts (k :: (us ++ after))) (present : ts ≠ [])
    (start : nextIs .leftParen ts = false)
    (mark : k.is .colon = true) (made : colonKey? t₁ = some key) (value : (Phrase.type ty).Survives us after) :
    (Phrase.entry (.keyed ⟨oc, some key, ty, s⟩ s')).Survives (os ++ (ts ++ k :: us)) after := by
  intro all loose
  have split : os ++ (ts ++ k :: us) ++ after = os ++ (ts ++ k :: (us ++ after)) := by simp
  rw [split] at loose
  obtain ⟨os', rest', rfl, loose, oc', hoc, occurrence'⟩ := occurrence.survives loose
  obtain ⟨ts', rest', rfl, more, first'⟩ := first _ loose
  obtain ⟨k', rest', rfl, mark', _, more⟩ := more.exists_mark mark
  obtain ⟨us', after', rfl, behind, value'⟩ := value _ more
  refine ⟨os' ++ (ts' ++ k' :: us'), after', by simp, behind, fun pre => ?_⟩
  obtain ⟨t₁', ht, type1⟩ := first' (stopAfter pre os')
  obtain ⟨ty', hty, type⟩ := value' k'.stop
  obtain ⟨key', made', hkey⟩ := exists_colonKey made ht
  have start' := loose.not_next_append present (type1.ne_nil rfl) (by decide) start
  refine ⟨_, ?_, .colonEntry occurrence' type1 start' mark' made' type⟩
  simp only [GroupEntry.erase, KeyedEntry.erase, eraseKey, hoc, hkey, hty]

theorem survives_arrowEntry (occurrence : SpellsOccurrence oc os (ts ++ (as ++ (us ++ after))))
    (first : (Phrase.type1 t₁).Survives ts (as ++ (us ++ after))) (present : ts ≠ [])
    (start : nextIs .leftParen ts = false) (arrow : SpellsArrow cut as) (value : (Phrase.type ty).Survives us after) :
    (Phrase.entry (.keyed ⟨oc, some (.type1 t₁ cut s''), ty, s⟩ s')).Survives (os ++ (ts ++ (as ++ us))) after := by
  intro all loose
  have split : os ++ (ts ++ (as ++ us)) ++ after = os ++ (ts ++ (as ++ (us ++ after))) := by simp
  rw [split] at loose
  obtain ⟨os', rest', rfl, loose, oc', hoc, occurrence'⟩ := occurrence.survives loose
  obtain ⟨ts', rest', rfl, more, first'⟩ := first _ loose
  obtain ⟨as', rest', rfl, more, arrow'⟩ := arrow.survives more
  obtain ⟨us', after', rfl, behind, value'⟩ := value _ more
  refine ⟨os' ++ (ts' ++ (as' ++ us')), after', by simp, behind, fun pre => ?_⟩
  obtain ⟨t₁', ht, type1⟩ := first' (stopAfter pre os')
  obtain ⟨ty', hty, type⟩ := value' (stopAfter pre (os' ++ (ts' ++ as')))
  have start' := loose.not_next_append present (type1.ne_nil rfl) (by decide) start
  refine ⟨_, ?_, .arrowEntry occurrence' type1 start' arrow' type⟩
  simp only [GroupEntry.erase, KeyedEntry.erase, eraseKey, MemberKey.erase, hoc, ht, hty]

theorem survives_namedEntry {ident : Identifier} {args : Option GenericArgs} {s₁ s₂ : Option Span}
    (occurrence : SpellsOccurrence oc os (ts ++ after))
    (first : (Phrase.type1 ⟨.typename ident args s₁, none, s₂⟩).Survives ts after) (free : nextIsKeyEnd after = false)
    (sole : nextIs .typeChoice after = false) :
    (Phrase.entry (.named ⟨oc, ident, args, s⟩ s')).Survives (os ++ ts) after := by
  intro all loose
  rw [List.append_assoc] at loose
  obtain ⟨os', rest', rfl, loose, oc', hoc, occurrence'⟩ := occurrence.survives loose
  obtain ⟨ts', after', rfl, behind, first'⟩ := first _ loose
  refine ⟨os' ++ ts', after', by simp, behind, fun pre => ?_⟩
  obtain ⟨t', ht, type1⟩ := first' (stopAfter pre os')
  obtain ⟨ident', args', _, _, rfl, hident, hargs⟩ := typename_of_erase ht
  refine ⟨_, ?_, .namedEntry occurrence' type1 (behind.respelled.not_nextIsKeyEnd free)
    (behind.respelled.not_next (by decide) sole)⟩
  simp only [GroupEntry.erase, NamedEntry.erase, hoc, hident, hargs]

theorem survives_keylessEntry (occurrence : SpellsOccurrence oc os (ts ++ (us ++ after)))
    (first : (Phrase.type1 t₁).Survives ts (us ++ after)) (present : ts ≠ []) (start : nextIs .leftParen ts = false)
    (free : nextIsKeyEnd (us ++ after) = false)
    (typed : ∀ ident a s s', t₁ = ⟨.typename ident a s, none, s'⟩ → nextIs .typeChoice (us ++ after) = true)
    (more : (Phrase.choices cs).Survives us after) :
    (Phrase.entry (.keyed ⟨oc, none, ⟨typeChoice t₁ :: cs, s''⟩, s⟩ s')).Survives (os ++ (ts ++ us)) after := by
  intro all loose
  have split : os ++ (ts ++ us) ++ after = os ++ (ts ++ (us ++ after)) := by simp
  rw [split] at loose
  obtain ⟨os', rest', rfl, loose, oc', hoc, occurrence'⟩ := occurrence.survives loose
  obtain ⟨ts', rest', rfl, left, first'⟩ := first _ loose
  have behind := left.respelled
  obtain ⟨us', after', rfl, last, more'⟩ := more _ left
  refine ⟨os' ++ (ts' ++ us'), after', by simp, last, fun pre => ?_⟩
  obtain ⟨t₁', ht, type1⟩ := first' (stopAfter pre os')
  obtain ⟨cs', hcs, choices⟩ := more' (stopAfter pre (os' ++ ts'))
  have start' := loose.not_next_append present (type1.ne_nil rfl) (by decide) start
  have typed' (ident a s s') (h : t₁' = ⟨.typename ident a s, none, s'⟩) :
      nextIs .typeChoice (us' ++ after') = true := by
    rw [h] at ht
    obtain ⟨ident', a', _, _, same, _⟩ := typename_of_erase ht.symm
    exact behind.next (by decide) (typed _ _ _ _ same)
  refine ⟨_, ?_, .keylessEntry occurrence' type1 start' (behind.not_nextIsKeyEnd free) typed' choices⟩
  simp only [GroupEntry.erase, KeyedEntry.erase, eraseKey, TypeExpr.erase, eraseTypeChoices, TypeChoice.erase,
    typeChoice, hoc, ht, hcs]

/-! ## Groups -/

variable {e : GroupEntry} {es : List ListedEntry} {gc : GroupChoice} {gcs : List GroupChoice}

theorem survives_noEntries (free : nextEndsChoice after = true) : (Phrase.entries []).Survives [] after :=
  fun all loose => ⟨[], all, rfl, loose, fun _ => ⟨[], rfl, .noEntries (loose.respelled.endsChoice free)⟩⟩

theorem survives_plainEntry (entry : (Phrase.entry e).Survives ts (us ++ after))
    (free : nextIs .comma (us ++ after) = false) (more : (Phrase.entries es).Survives us after) :
    (Phrase.entries (⟨e, false⟩ :: es)).Survives (ts ++ us) after := by
  intro all loose
  rw [List.append_assoc] at loose
  obtain ⟨ts', rest', rfl, left, entry'⟩ := entry _ loose
  have free' := left.respelled.not_next (by decide) free
  obtain ⟨us', after', rfl, behind, more'⟩ := more _ left
  refine ⟨ts' ++ us', after', by simp, behind, fun pre => ?_⟩
  obtain ⟨e', he, first⟩ := entry' pre
  obtain ⟨es', hes, rest⟩ := more' (stopAfter pre ts')
  exact ⟨_, by simp only [eraseListedEntries, ListedEntry.erase, he, hes], .plainEntry first free' rest⟩

theorem survives_commaEntry (entry : (Phrase.entry e).Survives ts (c :: (us ++ after))) (mark : c.is .comma = true)
    (more : (Phrase.entries es).Survives us after) :
    (Phrase.entries (⟨e, true⟩ :: es)).Survives (ts ++ c :: us) after := by
  intro all loose
  rw [List.append_assoc] at loose
  obtain ⟨ts', rest', rfl, left, entry'⟩ := entry _ loose
  obtain ⟨c', rest', rfl, mark', _, left⟩ := left.exists_mark mark
  obtain ⟨us', after', rfl, behind, more'⟩ := more _ left
  refine ⟨ts' ++ c' :: us', after', by simp, behind, fun pre => ?_⟩
  obtain ⟨e', he, first⟩ := entry' pre
  obtain ⟨es', hes, rest⟩ := more' c'.stop
  exact ⟨_, by simp only [eraseListedEntries, ListedEntry.erase, he, hes], .commaEntry first mark' rest⟩

theorem survives_groupChoice (entries : (Phrase.entries es).Survives ts after) :
    (Phrase.groupChoice ⟨es, s⟩).Survives ts after := by
  intro all loose
  obtain ⟨ts', after', rfl, behind, entries'⟩ := entries _ loose
  refine ⟨ts', after', rfl, behind, fun pre => ?_⟩
  obtain ⟨es', hes, spelled⟩ := entries' pre
  exact ⟨_, by simp only [GroupChoice.erase, hes], .groupChoice spelled⟩

theorem survives_noGroupChoices (free : nextIs .groupChoice after = false) :
    (Phrase.groupChoices []).Survives [] after :=
  fun all loose =>
    ⟨[], all, rfl, loose, fun _ => ⟨[], rfl, .noGroupChoices (loose.respelled.not_next (by decide) free)⟩⟩

theorem survives_moreGroupChoices (mark : t.is .groupChoice = true)
    (first : (Phrase.groupChoice gc).Survives ts (us ++ after)) (more : (Phrase.groupChoices gcs).Survives us after) :
    (Phrase.groupChoices (gc :: gcs)).Survives (t :: (ts ++ us)) after := by
  intro all loose
  rw [List.cons_append, List.append_assoc] at loose
  obtain ⟨t', rest', rfl, mark', _, loose⟩ := loose.exists_mark mark
  obtain ⟨ts', rest', rfl, loose, first'⟩ := first _ loose
  obtain ⟨us', after', rfl, behind, more'⟩ := more _ loose
  refine ⟨t' :: (ts' ++ us'), after', by simp, behind, fun _ => ?_⟩
  obtain ⟨gc', hgc, choice⟩ := first' t'.stop
  obtain ⟨gcs', hgcs, choices⟩ := more' (stopAfter t'.stop ts')
  exact ⟨_, by simp only [eraseGroupChoices, hgc, hgcs], .moreGroupChoices mark' choice choices⟩

theorem survives_group (first : (Phrase.groupChoice gc).Survives ts (us ++ after))
    (more : (Phrase.groupChoices gcs).Survives us after) : (Phrase.group ⟨gc :: gcs, s⟩).Survives (ts ++ us) after := by
  intro all loose
  rw [List.append_assoc] at loose
  obtain ⟨ts', rest', rfl, loose, first'⟩ := first _ loose
  obtain ⟨us', after', rfl, behind, more'⟩ := more _ loose
  refine ⟨ts' ++ us', after', by simp, behind, fun pre => ?_⟩
  obtain ⟨gc', hgc, choice⟩ := first' pre
  obtain ⟨gcs', hgcs, choices⟩ := more' (stopAfter pre ts')
  exact ⟨_, by simp only [Group.erase, eraseGroupChoices, hgc, hgcs], .group choice choices⟩

/-! ## All phrases -/

/-- **A phrase is still spelled when ranges in it and behind it are taken apart.** -/
theorem Spells.survives {p : Phrase} {pre : Location} (h : Spells p pre ts after) : p.Survives ts after := by
  induction h with
  | literal body => exact survives_literal body
  | typename name _ ih => exact survives_typename name ih
  | parenthesized opening _ closing ih => exact survives_parenthesized opening ih closing
  | map opening _ closing ih => exact survives_map opening ih closing
  | array opening _ closing ih => exact survives_array opening ih closing
  | unwrap opening name _ ih => exact survives_unwrap opening name ih
  | choiceFromInlineGroup mark opening _ closing ih => exact survives_choiceFromInlineGroup mark opening ih closing
  | choiceFromGroup mark name _ ih => exact survives_choiceFromGroup mark name ih
  | tagged body opening _ closing ih => exact survives_tagged body opening ih closing
  | major body bound free => exact survives_major body bound free
  | any mark => exact survives_any mark
  | noOperator free => exact survives_noOperator free
  | someOperator mark _ ih => exact survives_someOperator mark ih
  | range body => exact survives_range body
  | operands _ _ ih ih' => exact survives_operands ih ih'
  | noChoices free => exact survives_noChoices free
  | moreChoices mark _ _ ih ih' => exact survives_moreChoices mark ih ih'
  | type _ _ ih ih' => exact survives_type ih ih'
  | noArgs free => exact survives_noArgs free
  | someArgs opening _ _ closing ih ih' => exact survives_someArgs opening ih ih' closing
  | noMoreArgs free => exact survives_noMoreArgs free
  | moreArgs mark _ _ ih ih' => exact survives_moreArgs mark ih ih'
  | inlineEntry occurrence opening _ closing free ih => exact survives_inlineEntry occurrence opening ih closing free
  | enclosedEntry occurrence opening _ closing arrow _ ih ih' =>
    exact survives_enclosedEntry occurrence opening ih closing arrow ih'
  | colonEntry occurrence first start mark made _ ih ih' =>
    exact survives_colonEntry occurrence ih (first.ne_nil rfl) start mark made ih'
  | arrowEntry occurrence first start arrow _ ih ih' =>
    exact survives_arrowEntry occurrence ih (first.ne_nil rfl) start arrow ih'
  | namedEntry occurrence _ free sole ih => exact survives_namedEntry occurrence ih free sole
  | keylessEntry occurrence first start free typed _ ih ih' =>
    exact survives_keylessEntry occurrence ih (first.ne_nil rfl) start free typed ih'
  | noEntries free => exact survives_noEntries free
  | plainEntry _ free _ ih ih' => exact survives_plainEntry ih free ih'
  | commaEntry _ mark _ ih ih' => exact survives_commaEntry ih mark ih'
  | groupChoice _ ih => exact survives_groupChoice ih
  | noGroupChoices free => exact survives_noGroupChoices free
  | moreGroupChoices mark _ _ ih ih' => exact survives_moreGroupChoices mark ih ih'
  | group _ _ ih ih' => exact survives_group ih ih'

end Cddl
