import Cddl.Proofs.Layout.Entry
/-!
# What is written for a group, and for any phrase

Whatever tokens spell is laid out when it is written (`exists_layout`), if each of its tokens can be written.
-/
namespace Cddl

open Production Layout

variable {p : Phrase} {l pre : Location} {t c : Token} {ts us after : List Token} {ps qs : List Piece} {e : GroupEntry}
  {es : List ListedEntry} {choice : GroupChoice} {choices : List GroupChoice} {s : Option Span} {rest : Text}

/-! ## Entries of a group -/

/-- The blank before more entries. -/
def gapPieces : List ListedEntry → List Piece
  | [] => []
  | _ :: _ => [.blank " "]

theorem render_entries (e : GroupEntry) (comma : Bool) (es : List ListedEntry) :
    (Phrase.entries (⟨e, comma⟩ :: es)).render =
    e.render ++ ((if comma then (",": Text) else []) ++ (text (gapPieces es) ++ (Phrase.entries es).render)) := by
  cases es with
  | nil => simp [Phrase.render, renderListedEntries, ListedEntry.render, gapPieces]
  | cons e' es => simp [Phrase.render, renderListedEntries, ListedEntry.render, gapPieces]

theorem tokens_gapPieces (l : Location) (es : List ListedEntry) (qs : List Piece) :
    tokens l (gapPieces es ++ qs) = tokens (l.past (text (gapPieces es))) qs := by
  cases es <;> rfl

theorem scans_gapPieces (h : Scans qs rest) : Scans (gapPieces es ++ qs) rest := by
  cases es with
  | nil => exact h
  | cons e es => exact scans_blank (by decide) h

theorem delimits_gapPieces (more : Writes (Phrase.entries es).render qs) (hr : Delimits rest) :
    Delimits (text (gapPieces es ++ qs) ++ rest) := by
  cases es with
  | nil =>
    rw [gapPieces, List.nil_append, more.text]
    exact hr
  | cons e es => exact delimits_blank (by decide)

theorem writes_plainEntry (entry : Writes (Phrase.entry e).render ps) (more : Writes (Phrase.entries es).render qs) :
    Writes (Phrase.entries (⟨e, false⟩ :: es)).render (ps ++ (gapPieces es ++ qs)) where
  text := by
    have written : text ps = e.render := entry.text
    simp [render_entries, written, more.text]
  scans rest hr := scans_append.2 ⟨entry.scans _ (delimits_gapPieces more hr), scans_gapPieces (more.scans rest hr)⟩

theorem writes_commaEntry (entry : Writes (Phrase.entry e).render ps) (more : Writes (Phrase.entries es).render qs) :
    Writes (Phrase.entries (⟨e, true⟩ :: es)).render
      (ps ++ .token (.mark .comma) "," :: (gapPieces es ++ qs)) where
  text := by
    have written : text ps = e.render := entry.text
    simp [render_entries, written, more.text]
  scans rest hr := by
    refine scans_append.2 ⟨entry.scans _ (delimits_token (by decide)), ?_⟩
    exact scans_token (scanned_alone (by decide)) (scans_gapPieces (more.scans rest hr))

theorem laidOut_noEntries (free : nextEndsChoice after = true) : (Phrase.entries []).LaidOut [] after [] where
  toWrites := .nil
  respelled _ := .nil
  spells _ _ _ same := ⟨[], rfl, .noEntries (same.endsChoice free)⟩

theorem laidOut_plainEntry (entry : (Phrase.entry e).LaidOut ts (us ++ after) ps)
    (free : nextIs .comma (us ++ after) = false) (more : (Phrase.entries es).LaidOut us after qs) :
    (Phrase.entries (⟨e, false⟩ :: es)).LaidOut (ts ++ us) after (ps ++ (gapPieces es ++ qs)) where
  toWrites := writes_plainEntry entry.toWrites more.toWrites
  respelled l := by
    rw [tokens_append, tokens_gapPieces]
    exact (entry.respelled _).append (more.respelled _)
  spells l pre after' same := by
    rw [tokens_append, tokens_gapPieces]
    have behind := (more.respelled ((l.past (Layout.text ps)).past (Layout.text (gapPieces es)))).append same
    apply Exists.elim (entry.spells _ _ _ behind)
    rintro e' ⟨he, first⟩
    apply Exists.elim (more.spells _ _ _ same)
    rintro es' ⟨hes, others⟩
    refine ⟨_, ?_, .plainEntry first (behind.not_next (by decide) free) others⟩
    simp only [eraseListedEntries, ListedEntry.erase, he, hes]

theorem laidOut_commaEntry (entry : (Phrase.entry e).LaidOut ts (c :: (us ++ after)) ps) (mark : c.is .comma = true)
    (more : (Phrase.entries es).LaidOut us after qs) : (Phrase.entries (⟨e, true⟩ :: es)).LaidOut (ts ++ c :: us) after
      (ps ++ .token (.mark .comma) "," :: (gapPieces es ++ qs)) where
  toWrites := writes_commaEntry entry.toWrites more.toWrites
  respelled l := by
    rw [tokens_append, tokens_token, tokens_gapPieces]
    exact (entry.respelled _).append (.mark mark (more.respelled _))
  spells l pre after' same := by
    rw [tokens_append, tokens_token, tokens_gapPieces]
    apply Exists.elim (entry.spells _ _ _ (.mark mark ((more.respelled _).append same)))
    rintro e' ⟨he, first⟩
    apply Exists.elim (more.spells _ _ _ same)
    rintro es' ⟨hes, others⟩
    refine ⟨_, ?_, .commaEntry first rfl others⟩
    simp only [eraseListedEntries, ListedEntry.erase, he, hes]

theorem writes_groupChoice (inner : Writes (Phrase.entries es).render ps) :
    Writes (Phrase.groupChoice ⟨es, s⟩).render ps := by
  rw [Phrase.render, GroupChoice.render]
  exact inner

theorem laidOut_groupChoice (inner : (Phrase.entries es).LaidOut ts after ps) :
    (Phrase.groupChoice ⟨es, s⟩).LaidOut ts after ps where
  toWrites := writes_groupChoice inner.toWrites
  respelled := inner.respelled
  spells l pre after' same := by
    obtain ⟨es', hes, entries⟩ := inner.spells l pre after' same
    exact ⟨_, by simp only [GroupChoice.erase, hes], .groupChoice entries⟩

/-! ## Groups -/

theorem laidOut_noGroupChoices (free : nextIs .groupChoice after = false) :
    (Phrase.groupChoices []).LaidOut [] after [] where
  toWrites := .nil
  respelled _ := .nil
  spells _ _ _ same := ⟨[], rfl, .noGroupChoices (same.not_next (by decide) free)⟩

/-- A group choice and more after what stands between them. -/
theorem writes_groups (first : Writes (Phrase.groupChoice choice).render ps)
    (more : Writes (Phrase.groupChoices choices).render qs) :
    Writes (choice.render ++ (Phrase.groupChoices choices).render) (ps ++ qs) :=
  first.append more fun _ => delimits_flatMap (by decide) _

theorem writes_moreGroupChoices (first : Writes (Phrase.groupChoice choice).render ps)
    (more : Writes (Phrase.groupChoices choices).render qs) : Writes (Phrase.groupChoices (choice :: choices)).render
      (.blank " " :: .token (.mark .groupChoice) "//" :: .blank " " :: (ps ++ qs)) := by
  have written : (Phrase.groupChoices (choice :: choices)).render =
      " " ++ ("//" ++ (" " ++ (choice.render ++ (Phrase.groupChoices choices).render))) := by
    have separator : (" // " : Text) = " " ++ ("//" ++ " ") := by decide
    simp [Phrase.render, renderGroupChoices, separator]
  rw [written]
  exact .spaced (by decide) (writes_groups first more)

theorem laidOut_moreGroupChoices (mark : t.is .groupChoice = true)
    (first : (Phrase.groupChoice choice).LaidOut ts (us ++ after) ps)
    (more : (Phrase.groupChoices choices).LaidOut us after qs) :
    (Phrase.groupChoices (choice :: choices)).LaidOut (t :: (ts ++ us)) after
      (.blank " " :: .token (.mark .groupChoice) "//" :: .blank " " :: (ps ++ qs)) where
  toWrites := writes_moreGroupChoices first.toWrites more.toWrites
  respelled l := .mark mark (first.respelled_pair more _)
  spells l pre after' same := by
    rw [tokens_blank, tokens_token, tokens_blank, tokens_append]
    apply Exists.elim (first.spells _ _ _ ((more.respelled _).append same))
    rintro choice' ⟨hchoice, spelled⟩
    apply Exists.elim (more.spells _ _ _ same)
    rintro choices' ⟨hchoices, others⟩
    exact ⟨_, by simp only [eraseGroupChoices, hchoice, hchoices], .moreGroupChoices rfl spelled others⟩

theorem writes_group (first : Writes (Phrase.groupChoice choice).render ps)
    (more : Writes (Phrase.groupChoices choices).render qs) :
    Writes (Phrase.group ⟨choice :: choices, s⟩).render (ps ++ qs) := by
  have written : (Phrase.group ⟨choice :: choices, s⟩).render =
      choice.render ++ (Phrase.groupChoices choices).render := by
    simp [Phrase.render, Group.render, renderGroupChoices, Text.join_cons]
  rw [written]
  exact writes_groups first more

theorem laidOut_group (first : (Phrase.groupChoice choice).LaidOut ts (us ++ after) ps)
    (more : (Phrase.groupChoices choices).LaidOut us after qs) :
    (Phrase.group ⟨choice :: choices, s⟩).LaidOut (ts ++ us) after (ps ++ qs) where
  toWrites := writes_group first.toWrites more.toWrites
  respelled := first.respelled_pair more
  spells l pre after' same := by
    rw [tokens_append]
    apply Exists.elim (first.spells _ _ _ ((more.respelled _).append same))
    rintro choice' ⟨hchoice, spelled⟩
    apply Exists.elim (more.spells _ _ _ same)
    rintro choices' ⟨hchoices, others⟩
    exact ⟨_, by simp only [Group.erase, eraseGroupChoices, hchoice, hchoices], .group spelled others⟩

/-! ## Any phrase -/

/-- Tokens that can all be written. -/
def AllPlain (ts : List Token) : Prop := ∀ t ∈ ts, t.Plain

@[simp] theorem allPlain_cons : AllPlain (t :: ts) ↔ t.Plain ∧ AllPlain ts := List.forall_mem_cons

@[simp] theorem allPlain_append : AllPlain (ts ++ us) ↔ AllPlain ts ∧ AllPlain us := List.forall_mem_append

/-- The entry of a phrase that is a list of just one, or a group of just such a list. -/
def Phrase.sole? : Phrase → Option GroupEntry
  | .entries es => soleOf? es
  | .groupChoice c => soleOf? c.entries
  | .group g => g.sole?
  | _ => none

/-- The entry of a phrase that consists of just one is laid out by itself, perhaps before a comma. -/
def Phrase.SoleLaidOut (p : Phrase) (ts after : List Token) : Prop :=
  ∀ e, p.sole? = some e → ∃ es cs, ts = es ++ cs ∧ (cs = [] ∨ ∃ k, cs = [k] ∧ k.is .comma = true) ∧
    ∃ ps, (Phrase.entry e).LaidOut es (cs ++ after) ps

/-- A phrase is laid out, and so is the entry that is all of it. -/
def Phrase.Written (p : Phrase) (ts after : List Token) : Prop := (∃ ps, p.LaidOut ts after ps) ∧ p.SoleLaidOut ts after

theorem Phrase.LaidOut.written (h : p.LaidOut ts after ps) (sole : p.sole? = none) : p.Written ts after := by
  refine ⟨⟨ps, h⟩, fun e he => ?_⟩
  rw [sole] at he
  cases he

theorem exists_key_layout {g : Group} (inner : (Phrase.group g).Written ts (c :: after))
    (closing : c.is .rightParen = true) :
    ∃ ps, KeyLaidOut g ts c after ps := by
  obtain ⟨⟨ps, laidOut⟩, sole⟩ := inner
  cases hs : g.sole? with
  | none => exact ⟨ps, keyLaidOut_of_group laidOut closing (by rw [enclosedKey_eq, hs, Option.bind_none])⟩
  | some e =>
    cases he : e.type? with
    | none => exact ⟨ps, keyLaidOut_of_group laidOut closing (by rw [enclosedKey_eq, hs, Option.bind_some, he])⟩
    | some type =>
      obtain ⟨es, cs, rfl, hcs, qs, entry⟩ := sole e hs
      exact ⟨qs, keyLaidOut_of_entry hs he entry hcs closing⟩

/-- **Whatever tokens spell is laid out when it is written.** -/
theorem written_of_spells (h : Spells p pre ts after) (plain : AllPlain ts) : p.Written ts after := by
  induction h
  case literal body => exact (laidOut_literal body (allPlain_cons.1 plain).1).written rfl
  case typename name _ ih =>
    simp only [allPlain_cons] at plain
    obtain ⟨⟨_, inner⟩, _⟩ := ih plain.2
    exact (laidOut_typename name plain.1 inner).written rfl
  case parenthesized opening _ closing ih =>
    simp only [allPlain_cons, allPlain_append] at plain
    obtain ⟨⟨_, inner⟩, _⟩ := ih plain.2.1
    exact (laidOut_parenthesized opening inner closing).written rfl
  case map opening _ closing ih =>
    simp only [allPlain_cons, allPlain_append] at plain
    obtain ⟨⟨_, inner⟩, _⟩ := ih plain.2.1
    exact (laidOut_map opening inner closing).written rfl
  case array opening _ closing ih =>
    simp only [allPlain_cons, allPlain_append] at plain
    obtain ⟨⟨_, inner⟩, _⟩ := ih plain.2.1
    exact (laidOut_array opening inner closing).written rfl
  case unwrap opening name _ ih =>
    simp only [allPlain_cons] at plain
    obtain ⟨⟨_, inner⟩, _⟩ := ih plain.2.2
    exact (laidOut_unwrap opening name plain.2.1 inner).written rfl
  case choiceFromInlineGroup mark opening _ closing ih =>
    simp only [allPlain_cons, allPlain_append] at plain
    obtain ⟨⟨_, inner⟩, _⟩ := ih plain.2.2.1
    exact (laidOut_choiceFromInlineGroup mark opening inner closing).written rfl
  case choiceFromGroup opening name _ ih =>
    simp only [allPlain_cons] at plain
    obtain ⟨⟨_, inner⟩, _⟩ := ih plain.2.2
    exact (laidOut_choiceFromGroup opening name plain.2.1 inner).written rfl
  case tagged body opening _ closing ih =>
    simp only [allPlain_cons, allPlain_append] at plain
    obtain ⟨⟨_, inner⟩, _⟩ := ih plain.2.2.1
    exact (laidOut_tagged body opening inner closing).written rfl
  case major body bound free => exact (laidOut_major body bound free).written rfl
  case any mark => exact (laidOut_any mark).written rfl
  case noOperator free => exact (laidOut_noOperator free).written rfl
  case someOperator mark _ ih =>
    simp only [allPlain_cons] at plain
    obtain ⟨⟨_, inner⟩, _⟩ := ih plain.2
    exact (laidOut_someOperator mark plain.1 inner).written rfl
  case range body => exact (laidOut_range body (allPlain_cons.1 plain).1).written rfl
  case operands ih ih' =>
    rw [allPlain_append] at plain
    obtain ⟨⟨_, operand⟩, _⟩ := ih plain.1
    obtain ⟨⟨_, operator⟩, _⟩ := ih' plain.2
    exact (laidOut_operands operand operator).written rfl
  case noChoices free => exact (laidOut_noChoices free).written rfl
  case moreChoices mark _ _ ih ih' =>
    simp only [allPlain_cons, allPlain_append] at plain
    obtain ⟨⟨_, first⟩, _⟩ := ih plain.2.1
    obtain ⟨⟨_, more⟩, _⟩ := ih' plain.2.2
    exact (laidOut_moreChoices mark first more).written rfl
  case type ih ih' =>
    rw [allPlain_append] at plain
    obtain ⟨⟨_, first⟩, _⟩ := ih plain.1
    obtain ⟨⟨_, more⟩, _⟩ := ih' plain.2
    exact (laidOut_type first more).written rfl
  case noArgs free => exact (laidOut_noArgs free).written rfl
  case someArgs opening _ _ closing ih ih' =>
    simp only [allPlain_cons, allPlain_append] at plain
    obtain ⟨⟨_, first⟩, _⟩ := ih plain.2.1.1
    obtain ⟨⟨_, more⟩, _⟩ := ih' plain.2.1.2
    exact (laidOut_someArgs opening first more closing).written rfl
  case noMoreArgs free => exact (laidOut_noMoreArgs free).written rfl
  case moreArgs mark _ _ ih ih' =>
    simp only [allPlain_cons, allPlain_append] at plain
    obtain ⟨⟨_, first⟩, _⟩ := ih plain.2.1
    obtain ⟨⟨_, more⟩, _⟩ := ih' plain.2.2
    exact (laidOut_moreArgs mark first more).written rfl
  case inlineEntry occurrence opening _ closing free ih =>
    simp only [allPlain_cons, allPlain_append] at plain
    obtain ⟨⟨_, inner⟩, _⟩ := ih plain.2.2.1
    obtain ⟨_, before⟩ := exists_occurrence_layout occurrence plain.1
    exact (laidOut_inlineEntry (by simpa using before) opening inner closing free).written rfl
  case enclosedEntry occurrence opening _ closing arrow _ ih ih' =>
    simp only [allPlain_cons, allPlain_append] at plain
    obtain ⟨_, key⟩ := exists_key_layout (ih plain.2.2.1) closing
    obtain ⟨⟨_, value⟩, _⟩ := ih' plain.2.2.2.2.2
    obtain ⟨_, before⟩ := exists_occurrence_layout occurrence plain.1
    exact (laidOut_enclosedEntry (by simpa using before) opening arrow key value).written rfl
  case colonEntry occurrence _ start mark made _ ih ih' =>
    simp only [allPlain_cons, allPlain_append] at plain
    obtain ⟨⟨_, first⟩, _⟩ := ih plain.2.1
    obtain ⟨⟨_, value⟩, _⟩ := ih' plain.2.2.2
    obtain ⟨_, before⟩ := exists_occurrence_layout occurrence plain.1
    exact (laidOut_colonEntry (by simpa using before) first start mark made value).written rfl
  case arrowEntry occurrence type1 start arrow _ ih ih' =>
    simp only [allPlain_append] at plain
    obtain ⟨⟨_, first⟩, _⟩ := ih plain.2.1
    obtain ⟨⟨_, value⟩, _⟩ := ih' plain.2.2.2
    obtain ⟨_, before⟩ := exists_occurrence_layout occurrence plain.1
    exact (laidOut_arrowEntry (by simpa using before) first (type1.ne_nil rfl) start arrow value).written rfl
  case namedEntry occurrence type1 free sole ih =>
    rw [allPlain_append] at plain
    obtain ⟨⟨_, first⟩, _⟩ := ih plain.2
    obtain ⟨_, before⟩ := exists_occurrence_layout occurrence plain.1
    exact (laidOut_namedEntry before first (type1.ne_nil rfl) free sole).written rfl
  case keylessEntry occurrence type1 start free typed _ ih ih' =>
    simp only [allPlain_append] at plain
    obtain ⟨⟨_, first⟩, _⟩ := ih plain.2.1
    obtain ⟨⟨_, more⟩, _⟩ := ih' plain.2.2
    obtain ⟨_, before⟩ := exists_occurrence_layout occurrence plain.1
    exact (laidOut_keylessEntry (by simpa using before) first (type1.ne_nil rfl) start free typed more).written rfl
  case noEntries free => exact (laidOut_noEntries free).written rfl
  case plainEntry free more ih ih' =>
    rw [allPlain_append] at plain
    obtain ⟨⟨_, first⟩, _⟩ := ih plain.1
    obtain ⟨⟨_, others⟩, _⟩ := ih' plain.2
    refine ⟨⟨_, laidOut_plainEntry first free others⟩, fun e he => ?_⟩
    obtain ⟨_, sole⟩ := of_soleOf? he
    cases sole
    cases more
    exact ⟨_, [], rfl, .inl rfl, _, first⟩
  case commaEntry c _ _ _ _ _ mark more ih ih' =>
    simp only [allPlain_cons, allPlain_append] at plain
    obtain ⟨⟨_, first⟩, _⟩ := ih plain.1
    obtain ⟨⟨_, others⟩, _⟩ := ih' plain.2.2
    refine ⟨⟨_, laidOut_commaEntry first mark others⟩, fun e he => ?_⟩
    obtain ⟨_, sole⟩ := of_soleOf? he
    cases sole
    cases more
    exact ⟨_, [c], rfl, .inr ⟨c, rfl, mark⟩, _, first⟩
  case groupChoice ih =>
    obtain ⟨⟨_, inner⟩, sole⟩ := ih plain
    exact ⟨⟨_, laidOut_groupChoice inner⟩, sole⟩
  case noGroupChoices free => exact (laidOut_noGroupChoices free).written rfl
  case moreGroupChoices mark _ _ ih ih' =>
    simp only [allPlain_cons, allPlain_append] at plain
    obtain ⟨⟨_, first⟩, _⟩ := ih plain.2.1
    obtain ⟨⟨_, more⟩, _⟩ := ih' plain.2.2
    exact (laidOut_moreGroupChoices mark first more).written rfl
  case group choices _ _ _ _ more ih ih' =>
    rw [allPlain_append] at plain
    obtain ⟨⟨_, first⟩, sole⟩ := ih plain.1
    obtain ⟨⟨_, others⟩, _⟩ := ih' plain.2
    refine ⟨⟨_, laidOut_group first others⟩, fun e he => ?_⟩
    match choices, more, he with
    | [], more, he =>
      cases more
      rw [List.append_nil]
      exact sole e he

end Cddl
