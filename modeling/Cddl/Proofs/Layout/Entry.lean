import Cddl.Proofs.Layout.Type
import Cddl.Proofs.Phrase.Opening
/-!
# What is written for an entry

An occurrence stands before the rest of an entry with a blank in between, so a number behind an asterisk is a bound only
where it was one.
-/
namespace Cddl

open Production Layout

variable {n : Int} {l stop : Location} {t u o c : Token} {oc : Option Occurrence}
  {os bs ts as us after after' : List Token}
  {ps qs qs' : List Piece} {g : Group} {ty : TypeExpr} {s : Option Span} {rest : Text}

/-! ## Occurrences -/

/-- A layout of the text of an occurrence, up to what it belongs to. -/
structure OccurrenceLaidOut (oc : Option Occurrence) (os after : List Token) (ps : List Piece) : Prop where
  text : text ps = renderOccurrence oc
  scans : ∀ rest, Scans ps rest
  respelled : ∀ l, Respelled os (tokens l ps)
  spells : ∀ l qs after', tokens (l.past (Layout.text ps)) qs ≠ [] →
    Respelled after (tokens (l.past (Layout.text ps)) qs ++ after') →
      ∃ oc', oc'.map Occurrence.erase = oc.map Occurrence.erase ∧
        SpellsOccurrence oc' (tokens l ps) (tokens (l.past (Layout.text ps)) qs ++ after')

/-- A token that does not stand right at a place is not joined to what ends there. -/
theorem not_beginsJoined (h : stop.offset < l.offset) (hne : tokens l qs ≠ []) :
    beginsJoined stop (tokens l qs ++ after) = false := by
  obtain ⟨t, ts, split⟩ := List.exists_cons_of_ne_nil hne
  have first : t ∈ tokens l qs := split ▸ List.mem_cons_self
  have behind : l.offset ≤ t.location.offset := offset_le_of_mem first
  rw [split]
  refine Bool.eq_false_iff.2 fun joined => ?_
  obtain ⟨m, hm⟩ := Option.isSome_iff_exists.1 joined
  have := (body_of_uintAt? hm).2
  omega

theorem offset_stop (body : Token.Body) (s : Text) (l : Location) :
    (Token.stop ⟨body, s, l⟩).offset = (l.past s).offset :=
  (offset_past l s).symm

theorem uintAt?_past (s s' : Text) (l : Location) (body : Token.Body) :
    uintAt? (Token.stop ⟨body, s, l⟩) ⟨.value (.uint n), s', l.past s⟩ = some n := by
  unfold uintAt?
  simp only [offset_stop, if_true]

/-- Behind a blank nothing is joined to what stands before it. -/
theorem not_beginsJoined_blank (body : Token.Body) (s : Text) (l : Location)
    (hne : tokens ((l.past s).past " ") qs ≠ []) :
    beginsJoined (Token.stop ⟨body, s, l⟩) (tokens ((l.past s).past " ") qs ++ after) = false := by
  have space : (Text.ofString " ").length = 1 := by decide
  refine not_beginsJoined ?_ hne
  rw [offset_stop, offset_past (l.past s), space]
  omega

theorem scanned_plain_uint (body : t.body = .value (.uint n)) (plain : t.Plain) (hr : Delimits rest) :
    Scanned (.value (.uint n)) (Text.ofInt n) rest := by
  unfold Token.Plain at plain
  rw [body] at plain
  exact scanned_literal plain hr

/-- An occurrence in a single mark. -/
theorem occurrenceLaidOut_mark {m : Mark} {occur : Occur} (symbol : Text) (mark : t.is m = true)
    (written : renderOccurrence (some ⟨occur, s⟩) = symbol ++ " ") (stands : Scan.standsOut symbol " " m = true)
    (spelled : ∀ l after, beginsJoined (Token.stop ⟨.mark m, symbol, l⟩) after = false →
      ∃ s', SpellsOccurrence (some ⟨occur, s'⟩) [⟨.mark m, symbol, l⟩] after) :
    OccurrenceLaidOut (some ⟨occur, s⟩) [t] after [.token (.mark m) symbol, .blank " "] where
  text := by simpa using written.symm
  scans rest := scans_token (scanned_spaced stands) (scans_blank (by decide) scans_nil)
  respelled l := .mark mark .nil
  spells l qs after' := by
    rw [text_token, text_blank, text_nil, List.append_nil, past_append]
    intro hne _
    obtain ⟨s', occurrence⟩ := spelled l _ (not_beginsJoined_blank (.mark m) symbol l hne)
    exact ⟨some ⟨occur, s'⟩, rfl, occurrence⟩

theorem occurrenceLaidOut_upTo (mark : t.is .asterisk = true) (body : u.body = .value (.uint n)) (plain : u.Plain) :
    OccurrenceLaidOut (some ⟨.between none (some n), s⟩) [t, u] after
      [.token (.mark .asterisk) "*", .token (.value (.uint n)) (Text.ofInt n), .blank " "] where
  text := by simp [renderOccurrence, Occurrence.render, renderBound]
  scans rest := by
    refine scans_token (scanned_alone (by decide)) (scans_token ?_ (scans_blank (by decide) scans_nil))
    exact scanned_plain_uint body plain (delimits_blank (by decide))
  respelled l := .mark mark (.same body.symm .nil)
  spells l qs after' _ _ := by
    refine ⟨_, ?_, .upTo rfl (uintAt?_past _ _ _ _)⟩
    rfl

theorem occurrenceLaidOut_atLeast (body : t.body = .value (.uint n)) (plain : t.Plain) (mark : u.is .asterisk = true) :
    OccurrenceLaidOut (some ⟨.between (some n) none, s⟩) [t, u] after
      [.token (.value (.uint n)) (Text.ofInt n), .token (.mark .asterisk) "*", .blank " "] where
  text := by simp [renderOccurrence, Occurrence.render, renderBound]
  scans rest := by
    refine scans_token (scanned_plain_uint body plain (delimits_token (by decide))) ?_
    exact scans_token (scanned_spaced (by decide)) (scans_blank (by decide) scans_nil)
  respelled l := .same body.symm (.mark mark .nil)
  spells l qs after' := by
    rw [text_token, text_token, text_blank, text_nil, List.append_nil, past_append, past_append]
    intro hne _
    refine ⟨_, ?_, .atLeast rfl rfl (not_beginsJoined_blank _ _ _ hne)⟩
    rfl

theorem occurrenceLaidOut_fromTo {c : Token} {m : Int} (body : t.body = .value (.uint n)) (plain : t.Plain)
    (mark : c.is .asterisk = true) (body' : u.body = .value (.uint m)) (plain' : u.Plain) :
    OccurrenceLaidOut (some ⟨.between (some n) (some m), s⟩) [t, c, u] after
      [.token (.value (.uint n)) (Text.ofInt n), .token (.mark .asterisk) "*", .token (.value (.uint m)) (Text.ofInt m),
        .blank " "] where
  text := by simp [renderOccurrence, Occurrence.render, renderBound]
  scans rest := by
    refine scans_token (scanned_plain_uint body plain (delimits_token (by decide))) ?_
    refine scans_token (scanned_alone (by decide)) (scans_token ?_ (scans_blank (by decide) scans_nil))
    exact scanned_plain_uint body' plain' (delimits_blank (by decide))
  respelled l := .same body.symm (.mark mark (.same body'.symm .nil))
  spells l qs after' _ _ := by
    refine ⟨_, ?_, .fromTo rfl rfl (uintAt?_past _ _ _ _)⟩
    rfl

/-- **What an occurrence is written as is laid out.** -/
theorem exists_occurrence_layout (h : SpellsOccurrence oc os after) (plain : ∀ t ∈ os, t.Plain) :
    ∃ ps, OccurrenceLaidOut oc os after ps := by
  cases h with
  | none free =>
    exact ⟨[], rfl, fun _ => scans_nil, fun _ => .nil, fun _ _ _ _ same =>
      ⟨none, rfl, .none (same.not_beginsOccurrence free)⟩⟩
  | optional mark => exact ⟨_, occurrenceLaidOut_mark "?" mark rfl (by decide) fun _ _ _ => ⟨_, .optional rfl⟩⟩
  | oneOrMore mark => exact ⟨_, occurrenceLaidOut_mark "+" mark rfl (by decide) fun _ _ _ => ⟨_, .oneOrMore rfl⟩⟩
  | zeroOrMore mark =>
    exact ⟨_, occurrenceLaidOut_mark "*" mark rfl (by decide) fun _ _ free => ⟨_, .zeroOrMore rfl free⟩⟩
  | upTo mark upper => exact ⟨_, occurrenceLaidOut_upTo mark (body_of_uintAt? upper).1 (plain _ (by simp))⟩
  | atLeast lower mark => exact ⟨_, occurrenceLaidOut_atLeast lower (plain _ (by simp)) mark⟩
  | fromTo lower mark upper =>
    exact ⟨_, occurrenceLaidOut_fromTo lower (plain _ (by simp)) mark (body_of_uintAt? upper).1 (plain _ (by simp))⟩

/-- An occurrence is read again in front of what it belongs to. -/
theorem OccurrenceLaidOut.before (h : OccurrenceLaidOut oc os (bs ++ after) ps) (hbs : bs ≠ [])
    (body : ∀ l, Respelled bs (tokens l qs)) (same : Respelled after after') (l : Location) :
    ∃ oc', oc'.map Occurrence.erase = oc.map Occurrence.erase ∧
      SpellsOccurrence oc' (tokens l ps) (tokens (l.past (Layout.text ps)) qs ++ after') :=
  h.spells l qs after' ((body _).ne_nil hbs) ((body _).append same)

theorem OccurrenceLaidOut.respelled_before (h : OccurrenceLaidOut oc os after ps)
    (body : ∀ l, Respelled bs (tokens l qs)) (l : Location) : Respelled (os ++ bs) (tokens l (ps ++ qs)) := by
  rw [tokens_append]
  exact (h.respelled l).append (body _)

/-- An occurrence in front of what it belongs to. -/
theorem OccurrenceLaidOut.writes (h : OccurrenceLaidOut oc os after ps) {t : Text} (more : Writes t qs) :
    Writes (renderOccurrence oc ++ t) (ps ++ qs) :=
  ⟨by rw [text_append, h.text, more.text], fun rest hr => scans_append.2 ⟨h.scans _, more.scans rest hr⟩⟩

/-! ## Entries -/

theorem writes_inlineEntry (occurrence : OccurrenceLaidOut oc os after ps) (inner : Writes (Phrase.group g).render qs) :
    Writes (Phrase.entry (.inline oc g s)).render (ps ++ enclosed .leftParen .rightParen "(" ")" " " qs) := by
  have written : (Phrase.entry (.inline oc g s)).render = renderOccurrence oc ++ ("( " ++ g.render ++ " )") := by
    simp [Phrase.render, GroupEntry.render]
  rw [written]
  exact occurrence.writes (writes_inline inner)

theorem laidOut_inlineEntry (occurrence : OccurrenceLaidOut oc os (o :: (ts ++ [c]) ++ after) ps)
    (opening : o.is .leftParen = true)
    (inner : (Phrase.group g).LaidOut ts (c :: after) qs) (closing : c.is .rightParen = true)
    (free : nextIs .arrow after = false ∧ nextIs .cut after = false) :
    (Phrase.entry (.inline oc g s)).LaidOut (os ++ o :: (ts ++ [c])) after
      (ps ++ enclosed .leftParen .rightParen "(" ")" " " qs) := by
  have body (l : Location) :
      Respelled (o :: (ts ++ [c])) (tokens l (enclosed .leftParen .rightParen "(" ")" " " qs)) := by
    rw [tokens_enclosed]
    exact .mark opening ((inner.respelled _).append (.mark closing .nil))
  refine ⟨writes_inlineEntry occurrence inner.toWrites, occurrence.respelled_before body, fun l pre after' same => ?_⟩
  obtain ⟨oc', hoc, spelled⟩ := occurrence.before (List.cons_ne_nil _ _) body same l
  rw [tokens_enclosed] at spelled
  rw [tokens_append, tokens_enclosed]
  apply Exists.elim (inner.spells _ _ _ (.mark closing same))
  rintro g' ⟨hg, group⟩
  refine ⟨_, ?_, .inlineEntry (by simpa using spelled) rfl group rfl ⟨?_, ?_⟩⟩
  · simp only [GroupEntry.erase, hoc, hg]
  · exact same.not_next_arrow free.1 free.2
  · exact same.not_next (by decide) free.2

/-! ## Keys -/

variable {cut : Bool} {e : GroupEntry} {type : TypeExpr}

/-- The pieces of an arrow, with those of a cut before it where there is one. -/
def arrowPieces (cut : Bool) : List Piece :=
  (if cut then [.blank " ", .token (.mark .cut) "^"] else []) ++ [.blank " ", .token (.mark .arrow) "=>", .blank " "]

theorem text_arrowPieces (cut : Bool) :
    text (arrowPieces cut) = (if cut then (" ^" : Text) else []) ++ (" =>" ++ " ") := by
  cases cut <;> decide

theorem scans_arrowPieces (cut : Bool) (rest : Text) : Scans (arrowPieces cut) rest := by
  have arrow : Scans [.blank " ", .token (.mark .arrow) "=>", .blank " "] rest :=
    scans_blank (by decide) (scans_token (scanned_spaced (by decide)) (scans_blank (by decide) scans_nil))
  cases cut with
  | false => exact arrow
  | true => exact scans_blank (by decide) (scans_token (scanned_spaced (by decide)) arrow)

/-- An arrow in front of what it leads to. -/
theorem writes_arrow (cut : Bool) {t : Text} (value : Writes t qs) :
    Writes (text (arrowPieces cut) ++ t) (arrowPieces cut ++ qs) where
  text := by rw [text_append, value.text]
  scans rest hr := scans_append.2 ⟨scans_arrowPieces cut _, value.scans rest hr⟩

theorem delimits_arrow (cut : Bool) (t : Text) : Delimits (text (arrowPieces cut) ++ t ++ rest) := by
  rw [List.append_assoc]
  cases cut with
  | false => exact delimits_of_head (by decide) _
  | true => exact delimits_of_head (by decide) _

theorem spellsArrow_tokens (cut : Bool) (l : Location) : SpellsArrow cut (tokens l (arrowPieces cut)) := by
  cases cut with
  | false => exact .plain rfl
  | true => exact .cut rfl rfl

theorem SpellsArrow.respelled (h : SpellsArrow cut as) (l : Location) : Respelled as (tokens l (arrowPieces cut)) := by
  cases h with
  | plain arrow => exact .mark arrow .nil
  | cut mark arrow => exact .mark mark (.mark arrow .nil)

/-- A key in parentheses does not keep a cut. -/
theorem SpellsArrow.respelled_plain (h : SpellsArrow cut as) (l : Location) :
    Respelled as (tokens l (arrowPieces false)) := by
  cases h with
  | plain arrow => exact .mark arrow .nil
  | cut mark arrow => exact .cut mark rfl (.mark arrow .nil)

/-- A group as a key. -/
theorem writes_groupKey (inner : Writes (Phrase.group g).render ps) (key : enclosedKey g = .group g s) :
    Writes (enclosedKey g).render (enclosed .leftParen .rightParen "(" ")" [] ps) := by
  rw [key, NonMemberKey.render, List.append_assoc]
  exact inner.tight (by decide) (by decide) (by decide)

theorem enclosedKey_of_sole {g : Group} (sole : g.sole? = some e) (he : e.type? = some type) :
    enclosedKey g = .type type g.span := by
  rw [enclosedKey_eq, sole, Option.bind_some, he]

/-- A type as a key, which is a group with one entry. -/
theorem writes_typeKey {g : Group} (sole : g.sole? = some e) (he : e.type? = some type)
    (inner : Writes (Phrase.entry e).render ps) :
    Writes (enclosedKey g).render (enclosed .leftParen .rightParen "(" ")" [] ps) := by
  have written : type.render = (Phrase.entry e).render := render_type? he
  rw [enclosedKey_of_sole sole he, NonMemberKey.render, written, List.append_assoc]
  exact inner.tight (by decide) (by decide) (by decide)

/-- A layout of the text of a key in parentheses, between these. -/
structure KeyLaidOut (g : Group) (ts : List Token) (c : Token) (after : List Token) (ps : List Piece) : Prop where
  writes : Writes (enclosedKey g).render (enclosed .leftParen .rightParen "(" ")" [] ps)
  respelled : ∀ l s l', Respelled (ts ++ [c]) (tokens l ps ++ [⟨.mark .rightParen, s, l'⟩])
  spells : ∀ l pre s l' after', Respelled after after' → ∃ g', (enclosedKey g').erase = (enclosedKey g).erase ∧
    Spells (.group g') pre (tokens l ps) (⟨.mark .rightParen, s, l'⟩ :: after')

theorem keyLaidOut_of_group (inner : (Phrase.group g).LaidOut ts (c :: after) ps) (closing : c.is .rightParen = true)
    (key : enclosedKey g = .group g g.span) : KeyLaidOut g ts c after ps where
  writes := writes_groupKey inner.toWrites key
  respelled l s l' := (inner.respelled l).append (.mark closing .nil)
  spells l pre s l' after' same := by
    obtain ⟨g', hg, group⟩ := inner.spells l pre (⟨.mark .rightParen, s, l'⟩ :: after') (.mark closing same)
    exact ⟨g', by rw [erase_enclosedKey, hg, ← erase_enclosedKey], group⟩

/-- An entry that stands alone between brackets. -/
theorem spells_soleEntry {pre : Location} {m : Mark} (entry : Spells (.entry e) pre ts (c :: after))
    (closing : c.is m = true) (hm : m ∈ closers) :
    ∃ s s', Spells (.group ⟨[⟨[⟨e, false⟩], s⟩], s'⟩) pre ts (c :: after) := by
  have ends : nextEndsChoice (c :: after) = true := nextEndsChoice_of_closer closing hm
  have entries : Spells (.entries [⟨e, false⟩]) pre (ts ++ []) (c :: after) :=
    .plainEntry entry (not_next_of_closer closing hm (by decide)) (.noEntries ends)
  rw [List.append_nil] at entries
  have choices : Spells (.groupChoices []) (stopAfter pre ts) [] (c :: after) :=
    .noGroupChoices (not_next_of_closer closing hm (by decide))
  have group := Spells.group (.groupChoice entries) choices
  rw [List.append_nil] at group
  exact ⟨_, _, group⟩

/-- A type in parentheses is written without the comma that may follow it there. -/
theorem keyLaidOut_of_entry {es cs : List Token} (sole : g.sole? = some e) (he : e.type? = some type)
    (inner : (Phrase.entry e).LaidOut es (cs ++ c :: after) ps) (hcs : cs = [] ∨ ∃ k, cs = [k] ∧ k.is .comma = true)
    (closing : c.is .rightParen = true) : KeyLaidOut g (es ++ cs) c after ps := by
  have dropped {ts : List Token} {s : Text} {l : Location} (same : Respelled after ts) :
      Respelled (cs ++ c :: after) (⟨.mark .rightParen, s, l⟩ :: ts) := by
    rcases hcs with rfl | ⟨k, rfl, comma⟩
    · exact .mark closing same
    · exact .comma comma rfl (.mark closing same)
  have closed {s : Text} {l : Location} : Respelled (cs ++ [c]) [⟨.mark .rightParen, s, l⟩] := by
    rcases hcs with rfl | ⟨k, rfl, comma⟩
    · exact .mark closing .nil
    · exact .comma comma rfl (.mark closing .nil)
  refine ⟨writes_typeKey sole he inner.toWrites, fun l s l' => ?_, fun l pre s l' after' same => ?_⟩
  · rw [List.append_assoc]
    exact (inner.respelled l).append closed
  · obtain ⟨e', hentry, entry⟩ := inner.spells l pre _ (dropped same)
    obtain ⟨_, _, group⟩ := spells_soleEntry (m := .rightParen) entry rfl (by decide)
    obtain ⟨type', he', htype⟩ : ∃ type', e'.type? = some type' ∧ type'.erase = type.erase := by
      have erased := type?_erase e'
      rw [hentry, ← type?_erase, he] at erased
      exact Option.map_eq_some_iff.1 erased
    refine ⟨_, ?_, group⟩
    rw [enclosedKey_of_sole sole he, enclosedKey_of_sole rfl he', NonMemberKey.erase, NonMemberKey.erase, htype]

/-! ## Entries with a type -/

variable {t₁ : Type1} {cs : List TypeChoice} {key : MemberKey} {k : Token} {s' : Option Span}

theorem writes_enclosedEntry {key : NonMemberKey} {s'' : Option Span} (occurrence : OccurrenceLaidOut oc os after ps)
    (inner : Writes key.render qs) (value : Writes (Phrase.type ty).render qs') :
    Writes (Phrase.entry (.keyed ⟨oc, some (.enclosed key s''), ty, s⟩ s')).render
      (ps ++ (qs ++ (arrowPieces false ++ qs'))) := by
  have written : (Phrase.entry (.keyed ⟨oc, some (.enclosed key s''), ty, s⟩ s')).render =
      renderOccurrence oc ++ (key.render ++ (text (arrowPieces false) ++ ty.render)) := by
    simp [text_arrowPieces, Phrase.render, GroupEntry.render, KeyedEntry.render, renderKey, MemberKey.render]
  rw [written]
  exact occurrence.writes (inner.append (writes_arrow false value) fun _ _ => delimits_arrow false _)

theorem laidOut_enclosedEntry (occurrence : OccurrenceLaidOut oc os (o :: (ts ++ c :: (as ++ us)) ++ after) ps)
    (opening : o.is .leftParen = true) (arrow : SpellsArrow cut as)
    (inner : KeyLaidOut g ts c (as ++ (us ++ after)) qs) (value : (Phrase.type ty).LaidOut us after qs') :
    (Phrase.entry (.keyed ⟨oc, some (.enclosed (enclosedKey g) g.span), ty, s⟩ s')).LaidOut
      (os ++ o :: (ts ++ c :: (as ++ us))) after
      (ps ++ (enclosed .leftParen .rightParen "(" ")" [] qs ++ (arrowPieces false ++ qs'))) := by
  have split : o :: (ts ++ c :: (as ++ us)) = o :: (ts ++ [c]) ++ (as ++ us) := by simp
  have body (l : Location) : Respelled (o :: (ts ++ c :: (as ++ us)))
      (tokens l (enclosed .leftParen .rightParen "(" ")" [] qs ++ (arrowPieces false ++ qs'))) := by
    rw [split, tokens_append, tokens_enclosed, tokens_append]
    exact .mark opening ((inner.respelled _ _ _).append ((arrow.respelled_plain _).append (value.respelled _)))
  refine ⟨writes_enclosedEntry occurrence inner.writes value.toWrites, occurrence.respelled_before body,
    fun l pre after' same => ?_⟩
  obtain ⟨oc', hoc, spelled⟩ := occurrence.before (List.cons_ne_nil _ _) body same l
  rw [tokens_append, tokens_enclosed, tokens_append] at spelled
  rw [tokens_append, tokens_append, tokens_enclosed, tokens_append, List.cons_append, List.append_assoc,
    List.singleton_append]
  apply Exists.elim (inner.spells _ _ _ _ _ ((arrow.respelled_plain _).append ((value.respelled _).append same)))
  rintro g' ⟨hg, group⟩
  apply Exists.elim (value.spells _ _ _ same)
  rintro ty' ⟨hty, type⟩
  refine ⟨_, ?_, .enclosedEntry (by simpa using spelled) rfl group rfl (spellsArrow_tokens false _) type⟩
  simp only [GroupEntry.erase, KeyedEntry.erase, eraseKey, MemberKey.erase, hoc, hg, hty]

theorem writes_colonEntry (occurrence : OccurrenceLaidOut oc os after ps) (first : Writes (Phrase.type1 t₁).render qs)
    (made : colonKey? t₁ = some key) (value : Writes (Phrase.type ty).render qs') :
    Writes (Phrase.entry (.keyed ⟨oc, some key, ty, s⟩ s')).render
      (ps ++ (qs ++ .token (.mark .colon) ":" :: .blank " " :: qs')) := by
  have written : (Phrase.entry (.keyed ⟨oc, some key, ty, s⟩ s')).render =
      renderOccurrence oc ++ (t₁.render ++ (":" ++ (" " ++ ty.render))) := by
    simp [Phrase.render, GroupEntry.render, KeyedEntry.render, renderKey, render_colonKey made]
  rw [written]
  refine occurrence.writes (first.append (.alone (by decide) (.blank (by decide) value)) fun rest _ => ?_)
  rw [List.append_assoc]
  exact delimits_of_head (by decide) _

theorem laidOut_colonEntry (occurrence : OccurrenceLaidOut oc os (ts ++ k :: us ++ after) ps)
    (first : (Phrase.type1 t₁).LaidOut ts (k :: (us ++ after)) qs) (start : nextIs .leftParen ts = false)
    (mark : k.is .colon = true) (made : colonKey? t₁ = some key) (value : (Phrase.type ty).LaidOut us after qs') :
    (Phrase.entry (.keyed ⟨oc, some key, ty, s⟩ s')).LaidOut (os ++ (ts ++ k :: us)) after
      (ps ++ (qs ++ .token (.mark .colon) ":" :: .blank " " :: qs')) := by
  have body (l : Location) :
      Respelled (ts ++ k :: us) (tokens l (qs ++ .token (.mark .colon) ":" :: .blank " " :: qs')) := by
    rw [tokens_append, tokens_token, tokens_blank]
    exact (first.respelled _).append (.mark mark (value.respelled _))
  refine ⟨writes_colonEntry occurrence first.toWrites made value.toWrites, occurrence.respelled_before body,
    fun l pre after' same => ?_⟩
  obtain ⟨oc', hoc, spelled⟩ := occurrence.before (by simp) body same l
  rw [tokens_append, tokens_token, tokens_blank] at spelled
  rw [tokens_append, tokens_append, tokens_token, tokens_blank]
  apply Exists.elim (first.spells _ _ _ (.mark mark ((value.respelled _).append same)))
  rintro t' ⟨ht, type1⟩
  apply Exists.elim (value.spells _ _ _ same)
  rintro ty' ⟨hty, type⟩
  obtain ⟨key', made', hkey⟩ := exists_colonKey made ht
  have start' := (first.respelled ((l.past (Layout.text ps)))).not_next (by decide) start
  refine ⟨_, ?_, .colonEntry (by simpa using spelled) type1 start' rfl made' type⟩
  simp only [GroupEntry.erase, KeyedEntry.erase, eraseKey, hoc, hkey, hty]

theorem writes_arrowEntry {s'' : Option Span} (occurrence : OccurrenceLaidOut oc os after ps)
    (first : Writes (Phrase.type1 t₁).render qs) (value : Writes (Phrase.type ty).render qs') :
    Writes (Phrase.entry (.keyed ⟨oc, some (.type1 t₁ cut s''), ty, s⟩ s')).render
      (ps ++ (qs ++ (arrowPieces cut ++ qs'))) := by
  have written : (Phrase.entry (.keyed ⟨oc, some (.type1 t₁ cut s''), ty, s⟩ s')).render =
      renderOccurrence oc ++ (t₁.render ++ (text (arrowPieces cut) ++ ty.render)) := by
    simp [text_arrowPieces, Phrase.render, GroupEntry.render, KeyedEntry.render, renderKey, MemberKey.render]
  rw [written]
  exact occurrence.writes (first.append (writes_arrow cut value) fun _ _ => delimits_arrow cut _)

theorem laidOut_arrowEntry (occurrence : OccurrenceLaidOut oc os (ts ++ (as ++ us) ++ after) ps)
    (first : (Phrase.type1 t₁).LaidOut ts (as ++ (us ++ after)) qs) (present : ts ≠ [])
    (start : nextIs .leftParen ts = false)
    (arrow : SpellsArrow cut as) (value : (Phrase.type ty).LaidOut us after qs') {s'' : Option Span} :
    (Phrase.entry (.keyed ⟨oc, some (.type1 t₁ cut s''), ty, s⟩ s')).LaidOut (os ++ (ts ++ (as ++ us))) after
      (ps ++ (qs ++ (arrowPieces cut ++ qs'))) := by
  have body (l : Location) : Respelled (ts ++ (as ++ us)) (tokens l (qs ++ (arrowPieces cut ++ qs'))) := by
    rw [tokens_append, tokens_append]
    exact (first.respelled _).append ((arrow.respelled _).append (value.respelled _))
  refine ⟨writes_arrowEntry occurrence first.toWrites value.toWrites, occurrence.respelled_before body,
    fun l pre after' same => ?_⟩
  obtain ⟨oc', hoc, spelled⟩ := occurrence.before (by simp [present]) body same l
  rw [tokens_append, tokens_append] at spelled
  rw [tokens_append, tokens_append, tokens_append]
  apply Exists.elim (first.spells _ _ _ ((arrow.respelled _).append ((value.respelled _).append same)))
  rintro t' ⟨ht, type1⟩
  apply Exists.elim (value.spells _ _ _ same)
  rintro ty' ⟨hty, type⟩
  have start' := (first.respelled (l.past (Layout.text ps))).not_next (by decide) start
  refine ⟨_, ?_, .arrowEntry (by simpa using spelled) type1 start' (spellsArrow_tokens cut _) type⟩
  simp only [GroupEntry.erase, KeyedEntry.erase, eraseKey, MemberKey.erase, hoc, ht, hty]

/-- A type that says the same as a name is that name. -/
theorem typename_of_erase {t : Type1} {ident : Identifier} {args : Option GenericArgs} {s s' : Option Span}
    (h : t.erase = Type1.erase ⟨.typename ident args s, none, s'⟩) :
    ∃ ident' args' s s', t = ⟨.typename ident' args' s, none, s'⟩ ∧ ident'.erase = ident.erase ∧
      eraseArgs args' = eraseArgs args := by
  obtain ⟨operand, operator, span⟩ := t
  simp only [Type1.erase, Type2.erase, eraseOperator, Type1.mk.injEq] at h
  obtain ⟨hx, hop, _⟩ := h
  cases operator with
  | some o => cases hop
  | none =>
    cases operand with
    | typename ident' args' s =>
      rw [Type2.erase, Type2.typename.injEq] at hx
      exact ⟨ident', args', s, span, rfl, hx.1, hx.2.1⟩
    | _ => cases hx

theorem writes_namedEntry {ident : Identifier} {args : Option GenericArgs} {s₁ s₂ : Option Span}
    (occurrence : OccurrenceLaidOut oc os after ps)
    (first : Writes (Phrase.type1 ⟨.typename ident args s₁, none, s₂⟩).render qs) :
    Writes (Phrase.entry (.named ⟨oc, ident, args, s⟩ s')).render (ps ++ qs) := by
  have written : (Phrase.entry (.named ⟨oc, ident, args, s⟩ s')).render =
      renderOccurrence oc ++ (Phrase.type1 ⟨.typename ident args s₁, none, s₂⟩).render := by
    simp [Phrase.render, GroupEntry.render, NamedEntry.render, Type1.render, Type2.render, renderOperator]
  rw [written]
  exact occurrence.writes first

theorem laidOut_namedEntry {ident : Identifier} {args : Option GenericArgs} {s₁ s₂ : Option Span}
    (occurrence : OccurrenceLaidOut oc os (ts ++ after) ps)
    (first : (Phrase.type1 ⟨.typename ident args s₁, none, s₂⟩).LaidOut ts after qs) (present : ts ≠ [])
    (free : nextIsKeyEnd after = false) (sole : nextIs .typeChoice after = false) :
    (Phrase.entry (.named ⟨oc, ident, args, s⟩ s')).LaidOut (os ++ ts) after (ps ++ qs) := by
  refine ⟨writes_namedEntry occurrence first.toWrites, occurrence.respelled_before first.respelled,
    fun l pre after' same => ?_⟩
  obtain ⟨oc', hoc, spelled⟩ := occurrence.before present first.respelled same l
  rw [tokens_append]
  apply Exists.elim (first.spells _ _ _ same)
  rintro t' ⟨ht, type1⟩
  obtain ⟨ident', args', _, _, rfl, hident, hargs⟩ := typename_of_erase ht
  refine ⟨_, ?_, .namedEntry spelled type1 (same.not_nextIsKeyEnd free) (same.not_next (by decide) sole)⟩
  simp only [GroupEntry.erase, NamedEntry.erase, hoc, hident, hargs]

theorem writes_keylessEntry {s'' : Option Span} (occurrence : OccurrenceLaidOut oc os after ps)
    (first : Writes (Phrase.type1 t₁).render qs) (more : Writes (Phrase.choices cs).render qs') :
    Writes (Phrase.entry (.keyed ⟨oc, none, ⟨typeChoice t₁ :: cs, s''⟩, s⟩ s')).render (ps ++ (qs ++ qs')) := by
  have written : (Phrase.entry (.keyed ⟨oc, none, ⟨typeChoice t₁ :: cs, s''⟩, s⟩ s')).render =
      renderOccurrence oc ++ (Phrase.type ⟨typeChoice t₁ :: cs, s''⟩).render := by
    simp [Phrase.render, GroupEntry.render, KeyedEntry.render, renderKey]
  rw [written]
  exact occurrence.writes (writes_type first more)

theorem laidOut_keylessEntry (occurrence : OccurrenceLaidOut oc os (ts ++ us ++ after) ps)
    (first : (Phrase.type1 t₁).LaidOut ts (us ++ after) qs) (present : ts ≠ []) (start : nextIs .leftParen ts = false)
    (free : nextIsKeyEnd (us ++ after) = false)
    (typed : ∀ ident a s s', t₁ = ⟨.typename ident a s, none, s'⟩ → nextIs .typeChoice (us ++ after) = true)
    (more : (Phrase.choices cs).LaidOut us after qs') {s'' : Option Span} :
    (Phrase.entry (.keyed ⟨oc, none, ⟨typeChoice t₁ :: cs, s''⟩, s⟩ s')).LaidOut (os ++ (ts ++ us)) after
      (ps ++ (qs ++ qs')) := by
  have body := first.respelled_pair more
  refine ⟨writes_keylessEntry occurrence first.toWrites more.toWrites, occurrence.respelled_before body,
    fun l pre after' same => ?_⟩
  obtain ⟨oc', hoc, spelled⟩ := occurrence.before (by simp [present]) body same l
  rw [tokens_append] at spelled
  rw [tokens_append, tokens_append]
  have behind := (more.respelled ((l.past (Layout.text ps)).past (Layout.text qs))).append same
  apply Exists.elim (first.spells _ _ _ behind)
  rintro t' ⟨ht, type1⟩
  apply Exists.elim (more.spells _ _ _ same)
  rintro cs' ⟨hcs, choices⟩
  have start' := (first.respelled (l.past (Layout.text ps))).not_next (by decide) start
  have typed' (ident a s s') (h : t' = ⟨.typename ident a s, none, s'⟩) :
      nextIs .typeChoice (tokens ((l.past (Layout.text ps)).past (Layout.text qs)) qs' ++ after') = true := by
    rw [h] at ht
    obtain ⟨ident', a', _, _, same', _⟩ := typename_of_erase ht.symm
    exact behind.next (by decide) (typed _ _ _ _ same')
  refine ⟨_, ?_, .keylessEntry (by simpa using spelled) type1 start' (behind.not_nextIsKeyEnd free) typed' choices⟩
  simp only [GroupEntry.erase, KeyedEntry.erase, eraseKey, TypeExpr.erase, eraseTypeChoices, TypeChoice.erase,
    typeChoice, hoc, ht, hcs]

end Cddl
